import SocketTest.ShmTest.Children

/-!
# The end of the chat over shared memory

The parent leaves its loop through `stop_server`, or when `epoll_wait` fails. A `SIGTERM` or a `SIGINT`
sets it while there is no client, and sends `SIGTERM` to every pid of the table otherwise; the handling
of the last `SIGCHLD` is to set it then. But the table never loses an entry, and with no child left that
handling does not end: `shutdown` says what a run can come to.
-/

namespace SocketTest.ShmTest

open SocketTest.Lib

/-- `SIGTERM` and `SIGINT`, with the pids that are killed. -/
def Parent.sigterm (p : Parent) : Parent × List ℤ :=
  if p.userCount = 0 then ({ p with stopServer := true }, [])
  else ({ p with terminate := true }, (List.range p.userCount.toNat).map p.pidAt)

/-- In the loop, in the `waitpid` loop for good, or behind `while(!stop_server)`. -/
inductive Phase
  | running
  | hanging
  | left
  deriving DecidableEq

structure Main where
  family : Family
  phase : Phase

/-- What happens to the parent: a client, with whether a child is forked for it, a child that exits,
a `SIGCHLD`, with whether its handling ends, a `SIGTERM` or `SIGINT`, and an `epoll_wait` that fails. -/
inductive Call
  | arrive (a : Arrival) (forks : Bool)
  | exit (pid : ℤ)
  | sigchld (ends : Bool)
  | sigterm (killed : List ℤ)
  | leave
  | failure
  deriving DecidableEq

/-- The pid of a child that is forked. -/
def Call.forked : Call → Option ℤ
  | .arrive a true => some a.pid
  | _ => none

/-- All children so far. -/
def forked (calls : List Call) : List ℤ := calls.filterMap Call.forked

namespace Main

def start (users : ℤ → ClientData) (raw : ℤ → ℤ) : Main := ⟨.start users raw, .running⟩

inductive Step : Main → Call → Main → Prop
  | arrive {m : Main} {a : Arrival} (hp : m.phase = .running) (ha : m.family.Unused a) :
      Step m (.arrive a (m.family.parent.accept a).2.isSome)
        { m with family := m.family.arrive a }
  | exit {m : Main} {pid : ℤ} (h : pid ∈ m.family.running) :
      Step m (.exit pid) { m with family := m.family.exit pid }
  | sigchld {m : Main} {f : Family} (hp : m.phase = .running) (h : m.family.Handles f) :
      Step m (.sigchld true) { m with family := f }
  | hang {m : Main} (hp : m.phase = .running) (h : ∀ f, ¬ m.family.Handles f) :
      Step m (.sigchld false) { m with phase := .hanging }
  | sigterm {m : Main} (hp : m.phase = .running) :
      Step m (.sigterm m.family.parent.sigterm.2)
        { m with family := { m.family with parent := m.family.parent.sigterm.1 } }
  | leave {m : Main} (hp : m.phase = .running) (h : m.family.parent.stopServer = true) :
      Step m .leave { m with phase := .left }
  | failure {m : Main} (hp : m.phase = .running) : Step m .failure { m with phase := .left }

end Main

/-! ## What the table holds -/

namespace Parent

variable {p : Parent} {a : Arrival} {pids : List ℤ}

@[simp] theorem access_stopServer (p : Parent) (n i : ℤ) :
    (p.access n i).stopServer = p.stopServer := by
  unfold access; split_ifs <;> rfl

@[simp] theorem setUser_stopServer (p : Parent) (i : ℤ) (data : ClientData) :
    (p.setUser i data).stopServer = p.stopServer := by
  simp [setUser]

@[simp] theorem setProcess_stopServer (p : Parent) (pid i : ℤ) :
    (p.setProcess pid i).stopServer = p.stopServer := by
  simp [setProcess]

theorem accept_stopServer (p : Parent) (a : Arrival) :
    (p.accept a).1.stopServer = p.stopServer := by
  unfold accept
  split_ifs
  · rfl
  · rfl
  · exact setUser_stopServer _ _ _
  · simp

/-- The check of `terminate` and `user_count` is not reached. -/
theorem removeUser_stopServer (h : p.subProcess 0 = -1) :
    (p.removeUser 0).stopServer = p.stopServer := by
  unfold removeUser
  dsimp only
  rw [h, if_pos (Or.inl (by omega))]
  exact setProcess_stopServer _ _ _

/-- The pids of the table, in order. -/
structure Holds (p : Parent) (pids : List ℤ) : Prop where
  userCount : p.userCount = pids.length
  pidAt : (List.range pids.length).map p.pidAt = pids

theorem Holds.congr {p' : Parent} (h : p.Holds pids) (hcount : p'.userCount = p.userCount)
    (hpid : ∀ i < pids.length, p'.pidAt i = p.pidAt i) : p'.Holds pids := by
  refine ⟨hcount.trans h.userCount, Eq.trans ?_ h.pidAt⟩
  exact List.map_congr_left fun i hi => hpid i (List.mem_range.1 hi)

/-- A child that is forked has the next place, and any other client leaves the table as it is. -/
theorem Holds.accept (h : p.Holds pids) (a : Arrival) :
    (p.accept a).1.Holds (pids ++ (p.accept a).2.toList.map fun _ => a.pid) := by
  have hbelow {i : ℕ} (hi : i < pids.length) : (i : ℤ) ≠ p.userCount := by
    rw [h.userCount]
    omega
  unfold Parent.accept
  split_ifs with hfd hfull hpid
  · exact (List.append_nil pids).symm ▸ h
  · exact (List.append_nil pids).symm ▸ h
  · refine (List.append_nil pids).symm ▸ h.congr (by simp) fun i hi => ?_
    simp [Parent.pidAt, Function.update_of_ne (hbelow hi)]
  · refine ⟨?_, ?_⟩
    · show p.userCount + 1 = ((pids ++ [a.pid]).length : ℤ)
      rw [h.userCount, List.length_append, List.length_singleton]
      push_cast
      rfl
    · show (List.range (pids ++ [a.pid]).length).map _ = pids ++ [a.pid]
      rw [List.length_append, List.length_singleton, List.range_succ, List.map_append]
      refine congrArg₂ (· ++ ·) (Eq.trans ?_ h.pidAt) ?_
      · refine List.map_congr_left fun i hi => ?_
        simp [Parent.pidAt, Function.update_of_ne (hbelow (List.mem_range.1 hi))]
      · simp [Parent.pidAt, h.userCount]

/-- Everybody in the table is killed. -/
theorem Holds.killed (h : p.Holds pids) : p.sigterm.2 = pids := by
  unfold sigterm
  split_ifs with h0
  · have hnil : pids.length = 0 := by
      rw [h.userCount] at h0
      exact_mod_cast h0
    exact (List.length_eq_zero_iff.1 hnil).symm
  · show (List.range p.userCount.toNat).map p.pidAt = pids
    rw [h.userCount, Int.toNat_natCast]
    exact h.pidAt

end Parent

/-! ## Along a run -/

theorem forked_concat (calls : List Call) (c : Call) :
    forked (calls ++ [c]) = forked calls ++ c.forked.toList := by
  have hone : [c].filterMap Call.forked = c.forked.toList := by
    rw [List.filterMap_cons, List.filterMap_nil]
    cases c.forked <;> rfl
  rw [forked, List.filterMap_append, hone]
  rfl

theorem forked_arrive (p : Parent) (a : Arrival) :
    (Call.arrive a (p.accept a).2.isSome).forked.toList =
      (p.accept a).2.toList.map fun _ => a.pid := by
  cases (p.accept a).2 <;> rfl

/-- A signal has come before the first child. -/
def Early (calls : List Call) : Prop :=
  ∃ before killed after, calls = before ++ .sigterm killed :: after ∧ forked before = []

theorem Early.append {calls : List Call} (h : Early calls) (more : List Call) :
    Early (calls ++ more) := by
  obtain ⟨before, killed, after, rfl, hnone⟩ := h
  exact ⟨before, killed, after ++ more, by rw [List.append_assoc, List.cons_append], hnone⟩

namespace Main

variable {m m' : Main} {c : Call} {calls : List Call} {users : ℤ → ClientData} {raw : ℤ → ℤ}

structure Kept (calls : List Call) (m : Main) : Prop where
  running_pos : ∀ pid ∈ m.family.running, 0 < pid
  exited_pos : ∀ pid ∈ m.family.exited, 0 < pid
  zero : m.family.parent.subProcess 0 = -1
  holds : m.family.parent.Holds (forked calls)
  early : m.family.parent.stopServer = true → Early calls
  left : m.phase = .left → m.family.parent.stopServer = true ∨ .failure ∈ calls
  hanging : m.phase = .hanging → m.family.running = []

theorem kept_start (users : ℤ → ClientData) (raw : ℤ → ℤ) : Kept [] (start users raw) where
  running_pos := fun _ h => absurd h List.not_mem_nil
  exited_pos := fun _ h => absurd h List.not_mem_nil
  zero := by
    show (if (0 : ℤ) ≤ 0 ∧ 0 < PROCESS_LIMIT then -1 else raw 0) = -1
    exact if_pos ⟨le_rfl, by decide⟩
  holds := ⟨rfl, rfl⟩
  early := fun h => absurd h Bool.false_ne_true
  left := fun h => Phase.noConfusion h
  hanging := fun h => Phase.noConfusion h

theorem Kept.handles_iff (h : Kept calls m) :
    (∃ f, m.family.Handles f) ↔ m.family.running ≠ [] := by
  constructor
  · rintro ⟨f, hf⟩
    exact ((Family.handles_iff h.exited_pos).1 hf).1
  · exact fun hne => ⟨_, (Family.handles_iff h.exited_pos).2 ⟨hne, rfl⟩⟩

theorem Kept.arrive (h : Kept calls m) {a : Arrival} (hp : m.phase = .running)
    (ha : m.family.Unused a) :
    Kept (calls ++ [.arrive a (m.family.parent.accept a).2.isSome])
      { m with family := m.family.arrive a } := by
  have hparent : (m.family.arrive a).parent = (m.family.parent.accept a).1 := rfl
  refine ⟨?_, h.exited_pos, ?_, ?_, ?_, fun hl => absurd (hp.symm.trans hl) (by decide),
    fun hh => absurd (hp.symm.trans hh) (by decide)⟩
  · rcases Family.arrive_cases m.family a with ⟨hrun, -, -⟩ | ⟨hrun, hpid, -, -⟩
    · exact hrun ▸ h.running_pos
    · intro pid hmem
      dsimp only at hmem
      rw [hrun] at hmem
      rcases List.mem_append.1 hmem with hold | hnew
      · exact h.running_pos pid hold
      · exact List.mem_singleton.1 hnew ▸ (ha hpid).1
  · rcases Family.arrive_cases m.family a with ⟨-, -, hproc⟩ | ⟨-, hpid, -, hproc⟩
    · exact (congrFun hproc 0).trans h.zero
    · refine (congrFun hproc 0).trans ?_
      rw [Function.update_of_ne (ha hpid).1.ne]
      exact h.zero
  · rw [forked_concat, forked_arrive]
    exact h.holds.accept a
  · intro hs
    refine (h.early ?_).append _
    rwa [hparent, Parent.accept_stopServer] at hs

theorem Kept.sigterm (h : Kept calls m) (hp : m.phase = .running) :
    Kept (calls ++ [.sigterm m.family.parent.sigterm.2])
      { m with family := { m.family with parent := m.family.parent.sigterm.1 } } := by
  have hforked : forked (calls ++ [.sigterm m.family.parent.sigterm.2]) = forked calls :=
    (forked_concat _ _).trans (List.append_nil _)
  have hphase {q : Phase} (hq : q ≠ .running) : m.phase ≠ q := fun heq => hq (heq.symm.trans hp)
  have hcases : (m.family.parent.userCount = 0 ∧
        m.family.parent.sigterm.1 = { m.family.parent with stopServer := true }) ∨
      m.family.parent.sigterm.1 = { m.family.parent with terminate := true } := by
    unfold Parent.sigterm
    split_ifs with h0
    · exact .inl ⟨h0, rfl⟩
    · exact .inr rfl
  rcases hcases with ⟨h0, heq⟩ | heq
  · have hnone : forked calls = [] := by
      refine List.length_eq_zero_iff.1 ?_
      have := h.holds.userCount
      omega
    rw [heq]
    exact ⟨h.running_pos, h.exited_pos, h.zero, hforked.symm ▸ h.holds.congr rfl fun _ _ => rfl,
      fun _ => ⟨calls, _, [], rfl, hnone⟩, fun _ => .inl rfl,
      fun hh => absurd hh (hphase Phase.noConfusion)⟩
  · rw [heq]
    exact ⟨h.running_pos, h.exited_pos, h.zero, hforked.symm ▸ h.holds.congr rfl fun _ _ => rfl,
      fun hs => (h.early hs).append _, fun hl => absurd hl (hphase Phase.noConfusion),
      fun hh => absurd hh (hphase Phase.noConfusion)⟩

theorem Kept.step (h : Kept calls m) (hs : Step m c m') : Kept (calls ++ [c]) m' := by
  have hsame (hc : c.forked = none) : forked (calls ++ [c]) = forked calls := by
    rw [forked_concat, hc]
    exact List.append_nil _
  cases hs with
  | arrive hp ha => exact h.arrive hp ha
  | sigterm hp => exact h.sigterm hp
  | @exit pid hmem =>
    refine ⟨fun q hq => h.running_pos q (List.mem_of_mem_erase hq), fun q hq => ?_, h.zero,
      (hsame rfl).symm ▸ h.holds, fun hs => (h.early hs).append _,
      fun hl => (h.left hl).imp_right (List.mem_append_left _), fun hh => ?_⟩
    · rcases List.mem_append.1 hq with hold | hnew
      · exact h.exited_pos q hold
      · exact List.mem_singleton.1 hnew ▸ h.running_pos pid hmem
    · exact absurd (h.hanging hh ▸ hmem) List.not_mem_nil
  | sigchld hp hf =>
    obtain ⟨-, rfl⟩ := (Family.handles_iff h.exited_pos).1 hf
    obtain ⟨husers, hcount, hproc, -⟩ := Family.removeUser_zero h.zero
    refine ⟨h.running_pos, fun _ hq => absurd hq List.not_mem_nil, (congrFun hproc 0).trans h.zero,
      (hsame rfl).symm ▸ h.holds.congr hcount (fun i _ => ?_), fun hs => ?_,
      fun hl => absurd (hp.symm.trans hl) (by decide),
      fun hh => absurd (hp.symm.trans hh) (by decide)⟩
    · rw [Parent.pidAt, Parent.pidAt, husers]
    · refine (h.early ?_).append _
      rwa [← Parent.removeUser_stopServer h.zero]
  | hang hp hf =>
    refine ⟨h.running_pos, h.exited_pos, h.zero, (hsame rfl).symm ▸ h.holds,
      fun hs => (h.early hs).append _, fun hl => Phase.noConfusion hl, fun _ => ?_⟩
    by_contra hne
    obtain ⟨f, hf'⟩ := h.handles_iff.2 hne
    exact hf f hf'
  | leave hp hstop =>
    exact ⟨h.running_pos, h.exited_pos, h.zero, (hsame rfl).symm ▸ h.holds,
      fun hs => (h.early hs).append _, fun _ => .inl hstop, fun hh => Phase.noConfusion hh⟩
  | failure hp =>
    exact ⟨h.running_pos, h.exited_pos, h.zero, (hsame rfl).symm ▸ h.holds,
      fun hs => (h.early hs).append _, fun _ => .inr (List.mem_append_right _ List.mem_cons_self),
      fun hh => Phase.noConfusion hh⟩

/-- What a run can come to. -/
structure Shutdown (calls : List Call) (m : Main) : Prop where
  /-- whoever has been forked is killed, whether or not it has been waited for -/
  killed : ∀ before pids after, calls = before ++ .sigterm pids :: after → pids = forked before
  left : m.phase = .left → Early calls ∨ .failure ∈ calls
  /-- the handling of a `SIGCHLD` ends as long as a child is running -/
  handles : (∃ f, m.family.Handles f) ↔ m.family.running ≠ []
  hanging : m.phase = .hanging → m.family.running = []

/-- In every run, a `SIGTERM` or `SIGINT` kills all that have ever been forked, and the server
leaves its loop only if one has come before the first child, or `epoll_wait` has failed. With the last
child gone, a `SIGCHLD` takes it into a loop without an end. -/
theorem shutdown (hr : Run Step (start users raw) calls m) : Shutdown calls m := by
  have hkept {calls : List Call} {m : Main} (hr : Run Step (start users raw) calls m) :
      Kept calls m :=
    hr.history Kept (kept_start users raw) fun _ _ _ _ h hs => h.step hs
  refine ⟨?_, fun hl => ((hkept hr).left hl).imp_left (hkept hr).early, (hkept hr).handles_iff,
    (hkept hr).hanging⟩
  rintro before pids after rfl
  obtain ⟨m₁, hbefore, hafter⟩ := hr.split
  cases hafter with
  | cons hs _ => cases hs with
    | sigterm => exact (hkept hbefore).holds.killed

/-- Two children, of which one has exited. -/
def oneGone : Main :=
  ⟨((Family.blank.arrive ⟨3, (4, 5), 10⟩).arrive ⟨6, (7, 8), 11⟩).exit 10, .running⟩

/-- It has been waited for. -/
def oneReaped : Main :=
  ⟨{ oneGone.family with exited := [], parent := oneGone.family.parent.removeUser 0 }, .running⟩

/-- It is killed with the other one. -/
def bothKilled : Main :=
  ⟨{ oneReaped.family with parent := oneReaped.family.parent.sigterm.1 }, .running⟩

theorem shutdown_bothKilled : Shutdown [.arrive ⟨3, (4, 5), 10⟩ true,
    .arrive ⟨6, (7, 8), 11⟩ true, .exit 10, .sigchld true, .sigterm [10, 11]] bothKilled := by
  have hfirst : Step (start (fun _ => ⟨0, 0, (0, 0)⟩) fun _ => -1) (.arrive ⟨3, (4, 5), 10⟩ true)
      ⟨Family.blank.arrive ⟨3, (4, 5), 10⟩, .running⟩ := .arrive rfl fun _ => by decide
  have hsecond : Step ⟨Family.blank.arrive ⟨3, (4, 5), 10⟩, .running⟩
      (.arrive ⟨6, (7, 8), 11⟩ true)
      ⟨(Family.blank.arrive ⟨3, (4, 5), 10⟩).arrive ⟨6, (7, 8), 11⟩, .running⟩ :=
    .arrive rfl fun _ => by decide
  have hreap : Step oneGone (.sigchld true) oneReaped :=
    .sigchld rfl ((Family.handles_iff (by decide)).2 ⟨by decide, rfl⟩)
  have hkill : Step oneReaped (.sigterm [10, 11]) bothKilled := .sigterm rfl
  exact shutdown (.cons hfirst (.cons hsecond (.cons (.exit (by decide)) (.cons hreap
    (.single hkill)))))

end Main

end SocketTest.ShmTest
