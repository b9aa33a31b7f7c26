import SocketTest.Lib.RoundRobin

/-!
# The parent of the process pool

`processpool::run_parent` over the events that `epoll_wait` returns: connections, which go to the
children in turn, and signals. `-1` in place of a pid stands for a child that has been waited for.

1. The handlers, in the words of the source.
2. The parent takes turns: its runs are runs of the round robin of `Lib.RoundRobin`.
3. `Recorded`: the table clears exactly the children that `waitpid` has returned.
4. `dispatches`.
-/

namespace SocketTest.ProcessPool

open SocketTest.Lib

/-- Before `epoll_wait`, in the loop over its events, or behind `while(!m_stop)`. -/
inductive Phase
  | polling
  | handling
  | left
  deriving DecidableEq

structure Parent where
  pid : ℕ → ℤ
  /-- `m_pipefd[0]` is open -/
  pipeOpen : ℕ → Bool
  subProcessCounter : ℕ
  stop : Bool
  phase : Phase

/-- What the parent does, with what the system calls give and take: `listen` is a connection event and
the child that is sent a byte, `sigchld` the pids that `waitpid` returns, `sigterm` and `failure` (of
`epoll_wait`) the pids that are killed. -/
inductive Event
  | poll
  | listen (child : Option ℕ)
  | sigchld (pids : List ℤ)
  | sigterm (killed : List ℤ)
  | other
  | handled
  | failure (killed : List ℤ)
  deriving DecidableEq

namespace Parent

/-- The parent when all children have been forked. -/
structure Started (n : ℕ) (p : Parent) : Prop where
  pid_pos : ∀ i < n, 0 < p.pid i
  pipeOpen : ∀ i < n, p.pipeOpen i = true
  subProcessCounter : p.subProcessCounter = 0
  stop : p.stop = false
  phase : p.phase = .polling

/-- The child has not been waited for. -/
abbrev Live (p : Parent) (i : ℕ) : Prop := p.pid i ≠ -1

/-- The `do`/`while` of a connection event, from the place `i`. -/
def scan (p : Parent) (n i : ℕ) : ℕ ⊕ ℕ := RoundRobin.scan p.Live n p.subProcessCounter i

/-- A child that `waitpid` has returned is found in the table. -/
def join (p : Parent) (i : ℕ) : Parent :=
  { p with
    pipeOpen := Function.update p.pipeOpen i false
    pid := Function.update p.pid i (-1) }

/-- The loop over the table for one pid. -/
def joinAll (n : ℕ) (p : Parent) (pid : ℤ) : Parent :=
  (List.range n).foldl (fun p i => if p.pid i = pid then p.join i else p) p

/-- `SIGCHLD`: `waitpid` returns these pids and then none. -/
def sigchld (n : ℕ) (p : Parent) (pids : List ℤ) : Parent :=
  let p := pids.foldl (joinAll n) p
  { p with stop := (List.range n).all fun i => p.pid i = -1 }

/-- The pids that are sent `SIGTERM`. -/
def living (n : ℕ) (p : Parent) : List ℤ := ((List.range n).map p.pid).filter (· ≠ -1)

inductive Step (n : ℕ) : Parent → Event → Parent → Prop
  | poll {p : Parent} : p.phase = .polling → p.stop = false →
      Step n p .poll { p with phase := .handling }
  | notify {p : Parent} {i : ℕ} : p.phase = .handling →
      Loop.Ends (p.scan n) p.subProcessCounter i → p.Live i →
      Step n p (.listen (some i)) { p with subProcessCounter := (i + 1) % n }
  | noChild {p : Parent} {i : ℕ} : p.phase = .handling →
      Loop.Ends (p.scan n) p.subProcessCounter i → ¬ p.Live i →
      Step n p (.listen none) { p with stop := true, phase := .polling }
  | sigchld {p : Parent} {pids : List ℤ} : p.phase = .handling → (∀ pid ∈ pids, 0 < pid) →
      Step n p (.sigchld pids) (p.sigchld n pids)
  | sigterm {p : Parent} : p.phase = .handling → Step n p (.sigterm (p.living n)) p
  | other {p : Parent} : p.phase = .handling → Step n p .other p
  | handled {p : Parent} : p.phase = .handling → Step n p .handled { p with phase := .polling }
  | failure {p : Parent} : p.phase = .polling → p.stop = false →
      Step n p (.failure (p.living n)) { p with phase := .left }

variable {n : ℕ} {p p' : Parent} {e : Event} {es : List Event}

/-! ## Children that have exited -/

/-- The loop over the table for one pid clears its entries. -/
theorem joinAll_at (n : ℕ) (p : Parent) (pid : ℤ) (i : ℕ) :
    (joinAll n p pid).pid i = (if i < n ∧ p.pid i = pid then -1 else p.pid i) ∧
    (joinAll n p pid).pipeOpen i = if i < n ∧ p.pid i = pid then false else p.pipeOpen i := by
  unfold joinAll
  -- the induction is on the place that the loop has come to
  induction n generalizing i with
  | zero =>
    have hno : ¬ (i < 0 ∧ p.pid i = pid) := fun h => Nat.not_lt_zero i h.1
    rw [if_neg hno, if_neg hno]
    exact ⟨rfl, rfl⟩
  | succ n ih =>
    rw [List.range_succ, List.foldl_append, List.foldl_cons, List.foldl_nil]
    generalize (List.range n).foldl (fun p i => if p.pid i = pid then p.join i else p) p = q at ih ⊢
    have hn : q.pid n = p.pid n := by rw [(ih n).1, if_neg fun h => Nat.lt_irrefl n h.1]
    by_cases hi : i = n
    · subst hi
      by_cases hpid : p.pid i = pid
      · rw [if_pos (hn.trans hpid), if_pos ⟨Nat.lt_succ_self i, hpid⟩,
          if_pos ⟨Nat.lt_succ_self i, hpid⟩]
        exact ⟨Function.update_self _ _ _, Function.update_self _ _ _⟩
      · have hpipe : q.pipeOpen i = p.pipeOpen i := by
          rw [(ih i).2, if_neg fun h => Nat.lt_irrefl i h.1]
        rw [if_neg (hn ▸ hpid), if_neg fun h => hpid h.2, if_neg fun h => hpid h.2]
        exact ⟨hn, hpipe⟩
    · have hkept : (if q.pid n = pid then q.join n else q).pid i = q.pid i ∧
          (if q.pid n = pid then q.join n else q).pipeOpen i = q.pipeOpen i := by
        split_ifs
        · exact ⟨Function.update_of_ne hi _ _, Function.update_of_ne hi _ _⟩
        · exact ⟨rfl, rfl⟩
      have hiff : (i < n + 1 ∧ p.pid i = pid) ↔ (i < n ∧ p.pid i = pid) :=
        and_congr_left' (by omega)
      rw [hkept.1, hkept.2, if_congr hiff rfl rfl, if_congr hiff rfl rfl]
      exact ih i

theorem joinAll_frame (n : ℕ) (p : Parent) (pid : ℤ) : (joinAll n p pid).phase = p.phase ∧
    (joinAll n p pid).subProcessCounter = p.subProcessCounter := by
  unfold joinAll
  induction n with
  | zero => exact ⟨rfl, rfl⟩
  | succ n ih =>
    rw [List.range_succ, List.foldl_append, List.foldl_cons, List.foldl_nil]
    split_ifs <;> exact ih

/-- What `SIGCHLD` makes of an entry of the table. -/
theorem sigchld_at (n : ℕ) (p : Parent) (pids : List ℤ) (i : ℕ) :
    (p.sigchld n pids).pid i = (if i < n ∧ p.pid i ∈ pids then -1 else p.pid i) ∧
    (p.sigchld n pids).pipeOpen i = if i < n ∧ p.pid i ∈ pids then false else p.pipeOpen i := by
  unfold sigchld
  dsimp only
  induction pids generalizing p with
  | nil =>
    have hno : ¬ (i < n ∧ p.pid i ∈ ([] : List ℤ)) := fun h => List.not_mem_nil h.2
    rw [if_neg hno, if_neg hno]
    exact ⟨rfl, rfl⟩
  | cons pid pids ih =>
    obtain ⟨hpid, hpipe⟩ := joinAll_at n p pid i
    rw [List.foldl_cons, (ih (joinAll n p pid)).1, (ih (joinAll n p pid)).2, hpid, hpipe]
    by_cases hi : i < n ∧ p.pid i = pid
    · have hmem : i < n ∧ p.pid i ∈ pid :: pids := ⟨hi.1, hi.2 ▸ List.mem_cons_self⟩
      rw [if_pos hi, if_pos hi, if_pos hmem, if_pos hmem, ite_self, ite_self]
      exact ⟨rfl, rfl⟩
    · have hiff : (i < n ∧ p.pid i ∈ pid :: pids) ↔ (i < n ∧ p.pid i ∈ pids) := by
        refine and_congr_right fun hlt => ?_
        rw [List.mem_cons, or_iff_right fun h => hi ⟨hlt, h⟩]
      rw [if_neg hi, if_neg hi, if_congr hiff rfl rfl, if_congr hiff rfl rfl]
      exact ⟨rfl, rfl⟩

theorem sigchld_frame (n : ℕ) (p : Parent) (pids : List ℤ) : (p.sigchld n pids).phase = p.phase ∧
    (p.sigchld n pids).subProcessCounter = p.subProcessCounter := by
  unfold sigchld
  dsimp only
  induction pids generalizing p with
  | nil => exact ⟨rfl, rfl⟩
  | cons pid pids ih =>
    obtain ⟨hphase, hcounter⟩ := joinAll_frame n p pid
    exact ⟨(ih _).1.trans hphase, (ih _).2.trans hcounter⟩

theorem live_of_sigchld {pids : List ℤ} {i : ℕ} (h : (p.sigchld n pids).Live i) :
    p.Live i ∧ (p.sigchld n pids).pipeOpen i = p.pipeOpen i := by
  obtain ⟨hpid, hpipe⟩ := sigchld_at n p pids i
  by_cases hi : i < n ∧ p.pid i ∈ pids
  · rw [if_pos hi] at hpid
    exact absurd hpid h
  · rw [if_neg hi] at hpid hpipe
    rw [Live, hpid] at h
    exact ⟨h, hpipe⟩

theorem sigchld_stop (n : ℕ) (p : Parent) (pids : List ℤ) :
    (p.sigchld n pids).stop = true ↔ ∀ i < n, (p.sigchld n pids).pid i = -1 := by
  simp [sigchld]

/-! ## Turns -/

/-- The parent as a party to the round robin. -/
def turns (p : Parent) : RoundRobin.Turns := ⟨p.Live, p.subProcessCounter⟩

/-- What holds between the events. -/
structure Invariant (n : ℕ) (p : Parent) : Prop where
  counter_lt : p.subProcessCounter < n
  pipeOpen : ∀ i < n, p.Live i → p.pipeOpen i = true

theorem Started.invariant (hn : 0 < n) (h : p.Started n) : p.Invariant n :=
  ⟨by rw [h.subProcessCounter]; exact hn, fun i hi _ => h.pipeOpen i hi⟩

theorem found_of_ends (h : p.Invariant n) {i : ℕ}
    (hends : Loop.Ends (p.scan n) p.subProcessCounter i) :
    RoundRobin.Found p.Live n p.subProcessCounter i := RoundRobin.found_of_ends h.counter_lt hends

theorem first_of_ends (h : p.Invariant n) {i : ℕ}
    (hends : Loop.Ends (p.scan n) p.subProcessCounter i) (hlive : p.Live i) :
    RoundRobin.First p.Live n p.subProcessCounter i :=
  (found_of_ends h hends).resolve_right fun hnone =>
    hnone.2 i (hnone.1 ▸ h.counter_lt) hlive

theorem Invariant.step (h : p.Invariant n) (hs : Step n p e p') : p'.Invariant n := by
  cases hs with
  | @notify i _ hends hlive =>
    exact ⟨RoundRobin.next_lt (first_of_ends h hends hlive).lt, h.pipeOpen⟩
  | @sigchld pids _ _ =>
    obtain ⟨-, hcounter⟩ := sigchld_frame n p pids
    refine ⟨hcounter ▸ h.counter_lt, fun i hi hlive => ?_⟩
    obtain ⟨hbefore, hpipe⟩ := live_of_sigchld hlive
    rw [hpipe]
    exact h.pipeOpen i hi hbefore
  | poll | noChild | sigterm | other | handled | failure => exact ⟨h.counter_lt, h.pipeOpen⟩

theorem invariant_of_run {p₀ : Parent} (hn : 0 < n) (h0 : p₀.Started n)
    (hr : Run (Step n) p₀ es p) : p.Invariant n :=
  hr.invariant (fun _ _ _ h hs => h.step hs) (h0.invariant hn)

end Parent

/-- The child that an event notifies. -/
def Event.notified : Event → Option ℕ
  | .listen child => child
  | _ => none

namespace Parent

variable {n : ℕ} {p p' : Parent} {e : Event} {es : List Event}

theorem turn_of_step (h : p.Invariant n) (hs : Step n p e p') :
    RoundRobin.Turn n p.turns e.notified p'.turns := by
  cases hs with
  | @notify i _ hends hlive => exact .take (first_of_ends h hends hlive)
  | @sigchld pids _ _ =>
    obtain ⟨-, hcounter⟩ := sigchld_frame n p pids
    exact .drop (fun i hlive => (live_of_sigchld hlive).1) hcounter
  | poll | noChild | sigterm | other | handled | failure => exact .drop (fun _ h => h) rfl

/-- The parent's run is a run of the round robin. -/
theorem turns_of_run (h : p.Invariant n) (hr : Run (Step n) p es p') :
    Run (RoundRobin.Turn n) p.turns (es.map Event.notified) p'.turns :=
  hr.simulates (fun _ _ _ h hs => h.step hs) (fun _ _ _ h hs => turn_of_step h hs) h

/-! ## The table -/

/-- `waitpid` has returned the child `i`, with the pid that it was forked with. -/
def Reaped (p₀ : Parent) (es : List Event) (i : ℕ) : Prop :=
  ∃ pids, .sigchld pids ∈ es ∧ p₀.pid i ∈ pids

/-- The table after the events: the children that `waitpid` has returned are cleared and their pipes
closed, and nothing else has changed. -/
structure Recorded (n : ℕ) (p₀ : Parent) (es : List Event) (p : Parent) : Prop where
  reaped : ∀ i < n, p₀.Reaped es i → p.pid i = -1 ∧ p.pipeOpen i = false
  kept : ∀ i < n, ¬ p₀.Reaped es i → p.pid i = p₀.pid i ∧ p.pipeOpen i = true

theorem Reaped.mono {p₀ : Parent} {es₀ es₁ : List Event} {i : ℕ} (h : p₀.Reaped es₀ i) :
    p₀.Reaped (es₀ ++ es₁) i := by
  obtain ⟨pids, hmem, hpid⟩ := h
  exact ⟨pids, List.mem_append_left _ hmem, hpid⟩

theorem reaped_concat {p₀ : Parent} {i : ℕ} : p₀.Reaped (es ++ [e]) i ↔
    p₀.Reaped es i ∨ ∃ pids, e = .sigchld pids ∧ p₀.pid i ∈ pids := by
  simp only [Reaped, List.mem_append, List.mem_singleton, or_and_right, exists_or]
  exact or_congr_right (exists_congr fun _ => and_congr_left' eq_comm)

theorem Recorded.of_same {p₀ : Parent} (h : Recorded n p₀ es p) (he : ∀ pids, e ≠ .sigchld pids)
    (hpid : p'.pid = p.pid) (hpipe : p'.pipeOpen = p.pipeOpen) : Recorded n p₀ (es ++ [e]) p' := by
  have hiff {i : ℕ} : p₀.Reaped (es ++ [e]) i ↔ p₀.Reaped es i := by
    rw [reaped_concat]
    exact or_iff_left fun ⟨pids, hsig, _⟩ => he pids hsig
  constructor
  · intro i hi hr
    rw [hpid, hpipe]
    exact h.reaped i hi (hiff.1 hr)
  · intro i hi hr
    rw [hpid, hpipe]
    exact h.kept i hi (hr ∘ hiff.2)

theorem Recorded.step {p₀ : Parent} (h : Recorded n p₀ es p) (hs : Step n p e p') :
    Recorded n p₀ (es ++ [e]) p' := by
  cases hs with
  | @sigchld pids _ hpos =>
    constructor
    · intro i hi hr
      obtain ⟨hpid, hpipe⟩ := sigchld_at n p pids i
      by_cases hbefore : p₀.Reaped es i
      · obtain ⟨hdead, hclosed⟩ := h.reaped i hi hbefore
        rw [hpid, hpipe, hdead, hclosed]
        exact ⟨ite_self _, ite_self _⟩
      · rcases reaped_concat.1 hr with hr | ⟨_, ⟨rfl⟩, hmem⟩
        · exact absurd hr hbefore
        · rw [← (h.kept i hi hbefore).1] at hmem
          rw [hpid, hpipe, if_pos ⟨hi, hmem⟩, if_pos ⟨hi, hmem⟩]
          exact ⟨rfl, rfl⟩
    · intro i hi hr
      obtain ⟨hpid, hpipe⟩ := sigchld_at n p pids i
      obtain ⟨hsame, hopen⟩ := h.kept i hi fun hb => hr hb.mono
      have hno : ¬ (i < n ∧ p.pid i ∈ pids) := fun hmem =>
        hr (reaped_concat.2 (.inr ⟨pids, rfl, hsame ▸ hmem.2⟩))
      rw [hpid, hpipe, if_neg hno, if_neg hno]
      exact ⟨hsame, hopen⟩
  | poll | notify | noChild | sigterm | other | handled | failure =>
    exact h.of_same nofun rfl rfl

theorem recorded_of_run {p₀ : Parent} (h0 : p₀.Started n) (hr : Run (Step n) p₀ es p) :
    Recorded n p₀ es p := by
  refine hr.history (Recorded n p₀) ⟨?_, ?_⟩ fun _ _ _ _ h hs => h.step hs
  · rintro i - ⟨_, hmem, -⟩
    exact absurd hmem List.not_mem_nil
  · exact fun i hi _ => ⟨rfl, h0.pipeOpen i hi⟩

/-! ## The dispatch -/

/-- Whom a connection event goes to: the first live child from the cursor, whose pipe is open, or
nobody when nobody is live. -/
def Chosen (n : ℕ) (p : Parent) : Option ℕ → Prop
  | some i => RoundRobin.First p.Live n p.subProcessCounter i ∧ p.pipeOpen i = true
  | none => ∀ i < n, p.pid i = -1

/-- What a run has come to. -/
structure Dispatches (n : ℕ) (p₀ : Parent) (es : List Event) (p : Parent) : Prop where
  /-- the scan of a connection event ends -/
  scanEnds : ∃ i, Loop.Ends (p.scan n) p.subProcessCounter i
  chosen : ∀ child p', Step n p (.listen child) p' → p.Chosen n child ∧ (child = none → p'.stop = true)
  recorded : Recorded n p₀ es p
  /-- a child that has been waited for is not notified any more -/
  silent : ∀ es₀ es₁ i, es = es₀ ++ es₁ → i < n → p₀.Reaped es₀ i → .listen (some i) ∉ es₁
  /-- between two turns of `c` every other child that is still there has one -/
  fair : ∀ es₀ es₁ c d, es = es₀ ++ .listen (some c) :: es₁ ++ [.listen (some c)] →
    .listen (some c) ∉ es₁ → d < n → d ≠ c → p.Live d → es₁.count (.listen (some d)) = 1
  stop : ∀ es₀ pids, es = es₀ ++ [.sigchld pids] → (p.stop = true ↔ ∀ i < n, p.pid i = -1)

theorem chosen_of_step (h : p.Invariant n) {child : Option ℕ} (hs : Step n p (.listen child) p') :
    p.Chosen n child ∧ (child = none → p'.stop = true) := by
  cases hs with
  | @notify i _ hends hlive =>
    have hfirst := first_of_ends h hends hlive
    exact ⟨⟨hfirst, h.pipeOpen i hfirst.lt hlive⟩, nofun⟩
  | @noChild i _ hends hdead =>
    rcases found_of_ends h hends with hfirst | ⟨-, hnone⟩
    · exact absurd hfirst.live hdead
    · exact ⟨fun i hi => not_not.1 (hnone i hi), fun _ => rfl⟩

theorem count_notified (es : List Event) (i : ℕ) :
    (es.map Event.notified).count (some i) = es.count (.listen (some i)) := by
  induction es with
  | nil => rfl
  | cons e es ih =>
    rw [List.map_cons, List.count_cons, List.count_cons, ih]
    cases e <;> simp [Event.notified]

/-- **Round robin.** It holds of every run, whichever children exit on the way. -/
theorem dispatches {p₀ : Parent} (hn : 0 < n) (h0 : p₀.Started n) (hr : Run (Step n) p₀ es p) :
    Dispatches n p₀ es p := by
  have hinv := invariant_of_run hn h0 hr
  constructor
  · obtain ⟨i, hends, -⟩ : ∃ i, Loop.Ends (p.scan n) p.subProcessCounter i ∧
        RoundRobin.Found p.Live n p.subProcessCounter i := RoundRobin.ends_scan hinv.counter_lt
    exact ⟨i, hends⟩
  · intro child p' hs
    exact chosen_of_step hinv hs
  · exact recorded_of_run h0 hr
  · rintro es₀ es₁ i rfl hi hreaped hmem
    obtain ⟨before, after, rfl⟩ := List.append_of_mem hmem
    rw [← List.append_assoc] at hr
    obtain ⟨p₁, hrun, hlast⟩ := hr.split
    cases hlast with
    | cons hs _ =>
      have hlive := (chosen_of_step (invariant_of_run hn h0 hrun) hs).1.1.live
      exact hlive ((recorded_of_run h0 hrun).reaped i hi hreaped.mono).1
  · rintro es₀ es₁ c d rfl hno hd hdc hlive
    rw [List.append_assoc] at hr
    obtain ⟨p₁, hrun₀, hrun⟩ := hr.split
    have hinv₁ := invariant_of_run hn h0 hrun₀
    have hc : c < n := by
      cases hrun with
      | cons hs _ => exact (chosen_of_step hinv₁ hs).1.1.lt
    have hturns := turns_of_run hinv₁ hrun
    rw [List.map_append] at hturns
    have hno' : some c ∉ es₁.map Event.notified := by
      rwa [← List.count_eq_zero, count_notified, List.count_eq_zero]
    rw [← count_notified]
    exact RoundRobin.Turn.fair hc hturns hno' hd hdc hlive
  · rintro es₀ pids rfl
    obtain ⟨p₁, -, hlast⟩ := hr.split
    cases hlast with
    | cons hs hnil =>
      cases hnil
      cases hs with
      | sigchld _ _ => exact sigchld_stop n p₁ pids

/-- Two children, forked as 10 and 11. -/
def two : Parent := ⟨fun i => i + 10, fun _ => true, 0, false, .polling⟩

theorem two_started : two.Started 2 :=
  ⟨fun i _ => show (0 : ℤ) < i + 10 by omega, fun _ _ => rfl, rfl, rfl, rfl⟩

/-- The second child exits between two connections. -/
theorem dispatches_two : ∃ p, Dispatches 2 two
    [.poll, .listen (some 0), .sigchld [11], .listen (some 0)] p := by
  have hr : Run (Step 2) two [.poll, .listen (some 0), .sigchld [11], .listen (some 0)] _ :=
    .cons (.poll rfl rfl) (.cons (.notify rfl ⟨1, rfl⟩ (by decide))
      (.cons (.sigchld rfl (by decide)) (.cons (.notify rfl ⟨2, rfl⟩ (by decide)) (.nil _))))
  exact ⟨_, dispatches (by decide) two_started hr⟩

end Parent

end SocketTest.ProcessPool
