import SocketTest.Lib.Loop
import SocketTest.Lib.Run
import SocketTest.ShmTest.Parent

/-!
# Children that exit

`SIGCHLD` runs `while((pid=waitpid(-1,&stat,WNOHANG)));` to its end and then the block that removes a
client, once, for the pid that ended the loop. The loop takes every child that has exited, and it ends
when `waitpid` returns 0; with no child left, `waitpid` returns -1 and the loop goes on.
-/

namespace SocketTest.ShmTest

open SocketTest.Lib

/-- The parent, its running children and those that have exited and have not been waited for. -/
structure Family where
  parent : Parent
  running : List ℤ
  exited : List ℤ

/-- A client arrives, a child exits, or a `SIGCHLD` is handled. -/
inductive Change
  | arrive (a : Arrival)
  | exit (pid : ℤ)
  | sigchld
  deriving DecidableEq, Repr

def Change.isExit : Change → Bool
  | .exit _ => true
  | _ => false

namespace Family

def start (users : ℤ → ClientData) (raw : ℤ → ℤ) : Family := ⟨.start users raw, [], []⟩

/-- `waitpid(-1, &stat, WNOHANG)`. -/
def waitpid (f : Family) : ℤ × Family :=
  match f.exited with
  | pid :: rest => (pid, { f with exited := rest })
  | [] => (if f.running = [] then -1 else 0, f)

/-- One evaluation of the condition of `while((pid=waitpid(-1,&stat,WNOHANG)));`. -/
def waitRound (f : Family) : (ℤ × Family) ⊕ Family :=
  if f.waitpid.1 = 0 then .inl f.waitpid else .inr f.waitpid.2

/-- The handling of a `SIGCHLD` ends, with `f'`. -/
def Handles (f f' : Family) : Prop :=
  ∃ r, Loop.Ends waitRound f r ∧ f' = { r.2 with parent := r.2.parent.removeUser r.1 }

def arrive (f : Family) (a : Arrival) : Family :=
  let r := f.parent.accept a
  { f with parent := r.1, running := f.running ++ r.2.toList.map fun _ => a.pid }

def exit (f : Family) (pid : ℤ) : Family :=
  { f with running := f.running.erase pid, exited := f.exited ++ [pid] }

/-- `fork` fails or returns a pid that is not in use. -/
def Unused (f : Family) (a : Arrival) : Prop :=
  0 ≤ a.pid → 0 < a.pid ∧ a.pid ∉ f.running ∧ a.pid ∉ f.exited

inductive Step : Family → Change → Family → Prop
  | arrive {f : Family} {a : Arrival} : f.Unused a → Step f (.arrive a) (f.arrive a)
  | exit {f : Family} {pid : ℤ} : pid ∈ f.running → Step f (.exit pid) (f.exit pid)
  | sigchld {f f' : Family} : f.Handles f' → Step f .sigchld f'

/-- The tables are those of the running children, no other pid has a place, and nothing has been
written outside. -/
structure Booked (f : Family) : Prop where
  lists : f.parent.Lists f.running
  faults : f.parent.faults = []
  other : ∀ pid, 0 ≤ pid → pid ≤ PROCESS_LIMIT → pid ∉ f.running → f.parent.subProcess pid = -1

variable {f f' : Family} {e : Change} {changes : List Change}

/-! ## The loop -/

theorem not_handles (h : f.running = []) (hpos : ∀ pid ∈ f.exited, 0 < pid) : ¬ f.Handles f' := by
  rintro ⟨r, hr, -⟩
  refine Loop.not_ends (I := fun f => f.running = [] ∧ ∀ pid ∈ f.exited, 0 < pid) ?_ ⟨h, hpos⟩ hr
  rintro f ⟨h, hpos⟩
  unfold waitRound waitpid
  cases hex : f.exited with
  | nil =>
    refine ⟨f, ?_, h, hpos⟩
    simp [h]
  | cons pid rest =>
    rw [hex] at hpos
    have hne : pid ≠ 0 := (hpos pid List.mem_cons_self).ne'
    refine ⟨{ f with exited := rest }, ?_, h, fun q hq => hpos q (List.mem_cons_of_mem _ hq)⟩
    simp [hne]

/-- The loop ends with 0 when it has taken what has exited. -/
theorem ends_wait (h : f.running ≠ []) (hpos : ∀ pid ∈ f.exited, 0 < pid) (r : ℤ × Family) :
    Loop.Ends waitRound f r ↔ r = (0, { f with exited := [] }) := by
  generalize hex : f.exited = exited at hpos
  induction exited generalizing f with
  | nil =>
    have hround : waitRound f = .inl (0, f) := by simp [waitRound, waitpid, hex, h]
    have hsame : ({ f with exited := [] } : Family) = f := by rw [← hex]
    rw [Loop.ends_exit hround, hsame]
  | cons pid rest ih =>
    have hne : pid ≠ 0 := (hpos pid List.mem_cons_self).ne'
    have hround : waitRound f = .inr { f with exited := rest } := by
      simp [waitRound, waitpid, hex, hne]
    rw [Loop.ends_round hround]
    exact ih h rfl fun q hq => hpos q (List.mem_cons_of_mem _ hq)

theorem handles_iff (hpos : ∀ pid ∈ f.exited, 0 < pid) : f.Handles f' ↔
    f.running ≠ [] ∧ f' = { f with exited := [], parent := f.parent.removeUser 0 } := by
  by_cases h : f.running = []
  · exact iff_of_false (not_handles h hpos) fun h' => h'.1 h
  · rw [and_iff_right h]
    constructor
    · rintro ⟨r, hr, rfl⟩
      rw [(ends_wait h hpos r).1 hr]
    · rintro rfl
      exact ⟨_, (ends_wait h hpos _).2 rfl, rfl⟩

/-! ## The tables along a run -/

theorem arrive_cases (f : Family) (a : Arrival) :
    ((f.arrive a).running = f.running ∧ (f.arrive a).parent.userCount = f.parent.userCount ∧
      (f.arrive a).parent.subProcess = f.parent.subProcess) ∨
    ((f.arrive a).running = f.running ++ [a.pid] ∧ 0 ≤ a.pid ∧
      (f.arrive a).parent.userCount = f.parent.userCount + 1 ∧
      (f.arrive a).parent.subProcess =
        Function.update f.parent.subProcess a.pid f.parent.userCount) := by
  unfold arrive Parent.accept
  split_ifs with hfd hfull hpid
  · simp
  · simp
  · simp
  · right
    simp
    omega

theorem arrive_lists {a : Arrival} (h : f.parent.Lists f.running) (hnew : f.Unused a) :
    (f.arrive a).parent.Lists (f.arrive a).running := by
  by_cases hf : a.Forks f.running.length
  · obtain ⟨hsome, hlists⟩ := Parent.accept_some h hf (hnew hf.2.2).2.1
    simpa [arrive, hsome] using hlists
  · obtain ⟨hnone, hlists⟩ := Parent.accept_none h hf
    simpa [arrive, hnone] using hlists

/-- Of what a new child makes the parent write, its pid says whether it lies inside the tables. -/
theorem arrive_faults {a : Arrival} (hcount : 0 ≤ f.parent.userCount)
    (h : f.parent.faults = [] ↔ ∀ pid ∈ f.running, pid ≤ PROCESS_LIMIT) :
    (f.arrive a).parent.faults = [] ↔ ∀ pid ∈ (f.arrive a).running, pid ≤ PROCESS_LIMIT := by
  unfold arrive Parent.accept
  split_ifs with hfd hfull hpid
  · simpa using h
  · simpa using h
  · have hin : f.parent.userCount < USER_LIMIT + 1 := by omega
    simpa [Parent.setUser_faults, hcount, hin] using h
  · have hin : f.parent.userCount < USER_LIMIT + 1 := by omega
    have hpos : 0 ≤ a.pid := by omega
    simp only [Parent.setProcess_faults, Parent.setUser_faults, hcount, hin, hpos, and_self, true_and,
      and_true, h, Option.toList_some, List.map_cons, List.map_nil, List.forall_mem_append,
      List.forall_mem_singleton, Int.lt_add_one_iff]

/-- The pid that ends the loop has no place, and the block goes on with the next signal. -/
theorem removeUser_zero {p : Parent} (h : p.subProcess 0 = -1) : (p.removeUser 0).users = p.users ∧
    (p.removeUser 0).userCount = p.userCount ∧ (p.removeUser 0).subProcess = p.subProcess ∧
    ((p.removeUser 0).faults = [] ↔ p.faults = []) := by
  unfold Parent.removeUser
  dsimp only
  rw [h, if_pos (Or.inl (by omega))]
  refine ⟨by simp, by simp, ?_, ?_⟩
  · rw [Parent.setProcess_subProcess, ← h, Function.update_eq_self]
  · rw [Parent.setProcess_faults]
    exact and_iff_left (by decide)

/-- What a run of these changes leaves: clients are added and never removed. -/
structure Grown (raw : ℤ → ℤ) (changes : List Change) (f : Family) : Prop where
  running_pos : ∀ pid ∈ f.running, 0 < pid
  exited_pos : ∀ pid ∈ f.exited, 0 < pid
  zero : f.parent.subProcess 0 = -1
  count : f.parent.userCount = f.running.length + changes.countP Change.isExit
  lists : changes.countP Change.isExit = 0 → f.parent.Lists f.running
  faults : changes.countP Change.isExit = 0 →
    (f.parent.faults = [] ↔ ∀ pid ∈ f.running, pid ≤ PROCESS_LIMIT)
  other : changes.countP Change.isExit = 0 → ∀ pid, pid ∉ f.running →
    f.parent.subProcess pid = if 0 ≤ pid ∧ pid < PROCESS_LIMIT then -1 else raw pid

theorem grown_start (users : ℤ → ClientData) (raw : ℤ → ℤ) : Grown raw [] (start users raw) where
  running_pos := by simp [start]
  exited_pos := by simp [start]
  zero := by simp [start, Parent.start, PROCESS_LIMIT]
  count := rfl
  lists := fun _ => .start users raw
  faults := fun _ => iff_of_true rfl (by simp [start])
  other := fun _ _ _ => rfl

theorem countP_concat (changes : List Change) (e : Change) :
    (changes ++ [e]).countP Change.isExit =
      changes.countP Change.isExit + if e.isExit then 1 else 0 := by
  rw [List.countP_append, List.countP_singleton]

theorem Grown.arrive {raw : ℤ → ℤ} (h : Grown raw changes f) {a : Arrival} (hnew : f.Unused a) :
    Grown raw (changes ++ [.arrive a]) (f.arrive a) := by
  have hexits : (changes ++ [Change.arrive a]).countP Change.isExit =
      changes.countP Change.isExit := countP_concat changes _
  have hfaults := fun h0 => arrive_faults (a := a) (by rw [h.count]; omega) (h.faults h0)
  rcases arrive_cases f a with ⟨hrun, hcount, hproc⟩ | ⟨hrun, hpid, hcount, hproc⟩
  · constructor
    · rw [hrun]
      exact h.running_pos
    · exact h.exited_pos
    · rw [hproc]
      exact h.zero
    · rw [hcount, hrun, hexits]
      exact h.count
    · rw [hexits]
      exact fun h0 => arrive_lists (h.lists h0) hnew
    · rw [hexits]
      exact hfaults
    · rw [hexits, hrun, hproc]
      exact h.other
  · have hpos := (hnew hpid).1
    constructor
    · rw [hrun]
      intro pid hm
      rcases List.mem_append.1 hm with hm | hm
      · exact h.running_pos pid hm
      · rw [List.mem_singleton.1 hm]
        exact hpos
    · exact h.exited_pos
    · rw [hproc, Function.update_of_ne hpos.ne]
      exact h.zero
    · rw [hcount, hrun, hexits, h.count, List.length_append, List.length_singleton]
      push_cast
      ring
    · rw [hexits]
      exact fun h0 => arrive_lists (h.lists h0) hnew
    · rw [hexits]
      exact hfaults
    · rw [hexits, hrun, hproc]
      intro h0 pid hm
      have hm' : pid ∉ f.running ∧ pid ≠ a.pid := by simpa using hm
      rw [Function.update_of_ne hm'.2]
      exact h.other h0 pid hm'.1

theorem Grown.exit {raw : ℤ → ℤ} (h : Grown raw changes f) {pid : ℤ} (hm : pid ∈ f.running) :
    Grown raw (changes ++ [.exit pid]) (f.exit pid) := by
  have hexits : (changes ++ [Change.exit pid]).countP Change.isExit =
      changes.countP Change.isExit + 1 := countP_concat changes _
  have hlen := List.length_erase_of_mem hm
  have hpos := List.length_pos_of_mem hm
  constructor
  · exact fun q hq => h.running_pos q (List.mem_of_mem_erase hq)
  · intro q hq
    rcases List.mem_append.1 hq with hq | hq
    · exact h.exited_pos q hq
    · rw [List.mem_singleton.1 hq]
      exact h.running_pos pid hm
  · exact h.zero
  · show f.parent.userCount = ((f.running.erase pid).length : ℤ) + _
    rw [hexits, hlen, h.count]
    push_cast [Nat.cast_sub hpos]
    ring
  · rw [hexits]
    exact fun h0 => absurd h0 (Nat.succ_ne_zero _)
  · rw [hexits]
    exact fun h0 => absurd h0 (Nat.succ_ne_zero _)
  · rw [hexits]
    exact fun h0 => absurd h0 (Nat.succ_ne_zero _)

theorem Grown.sigchld {raw : ℤ → ℤ} (h : Grown raw changes f) (hh : f.Handles f') :
    Grown raw (changes ++ [.sigchld]) f' := by
  have hexits : (changes ++ [Change.sigchld]).countP Change.isExit =
      changes.countP Change.isExit := countP_concat changes _
  obtain ⟨-, rfl⟩ := (handles_iff h.exited_pos).1 hh
  obtain ⟨husers, hcount, hproc, hfaults⟩ := removeUser_zero h.zero
  constructor
  · exact h.running_pos
  · exact fun q hq => absurd hq List.not_mem_nil
  · dsimp only
    rw [hproc]
    exact h.zero
  · dsimp only
    rw [hcount, hexits]
    exact h.count
  · rw [hexits]
    exact fun h0 => (h.lists h0).congr hcount (fun i _ => by simp [Parent.pidAt, husers]) hproc
  · rw [hexits]
    exact fun h0 => hfaults.trans (h.faults h0)
  · dsimp only
    rw [hexits, hproc]
    exact h.other

theorem step_grown {raw : ℤ → ℤ} (h : Grown raw changes f) (hs : Step f e f') :
    Grown raw (changes ++ [e]) f' := by
  cases hs with
  | arrive hnew => exact h.arrive hnew
  | exit hm => exact h.exit hm
  | sigchld hh => exact h.sigchld hh

theorem countP_isExit : changes.countP Change.isExit = 0 ↔ ∀ pid, .exit pid ∉ changes := by
  rw [List.countP_eq_zero]
  constructor
  · intro h pid hm
    exact absurd rfl (h _ hm)
  · intro h e hm he
    cases e with
    | exit pid => exact h pid hm
    | arrive a => cases he
    | sigchld => cases he

theorem booked_iff {raw : ℤ → ℤ} (h : Grown raw changes f) :
    (∃ f', f.Handles f' ∧ f'.Booked) ↔ (∀ pid, .exit pid ∉ changes) ∧ f.running ≠ [] ∧
      (∀ pid ∈ f.running, pid ≤ PROCESS_LIMIT) ∧
      (raw PROCESS_LIMIT = -1 ∨ PROCESS_LIMIT ∈ f.running) := by
  obtain ⟨husers, hcount, hproc, hfaults⟩ := removeUser_zero h.zero
  rw [← countP_isExit]
  constructor
  · rintro ⟨f', hh, hb⟩
    obtain ⟨hrun, rfl⟩ := (handles_iff h.exited_pos).1 hh
    have huser : f.parent.userCount = f.running.length := hcount.symm.trans hb.lists.userCount
    have h0 : changes.countP Change.isExit = 0 := by
      have := h.count
      omega
    refine ⟨h0, hrun, (h.faults h0).1 (hfaults.1 hb.faults), ?_⟩
    by_cases hm : PROCESS_LIMIT ∈ f.running
    · exact .inr hm
    · left
      have hlast := hb.other PROCESS_LIMIT (by decide) le_rfl hm
      dsimp only at hlast
      rwa [hproc, h.other h0 _ hm, if_neg (by omega)] at hlast
  · rintro ⟨h0, hrun, hle, hlast⟩
    refine ⟨_, (handles_iff h.exited_pos).2 ⟨hrun, rfl⟩, ?_, hfaults.2 ((h.faults h0).2 hle), ?_⟩
    · exact (h.lists h0).congr hcount (fun i _ => by simp [Parent.pidAt, husers]) hproc
    · intro pid hpid hle hm
      dsimp only at hm ⊢
      rw [hproc, h.other h0 pid hm]
      split_ifs with hlt
      · rfl
      · obtain rfl : pid = PROCESS_LIMIT := by omega
        exact hlast.resolve_right hm

end Family

/-- **Child bookkeeping.** After any run, the handling of a `SIGCHLD` ends with the tables of the
running children exactly when no child has exited so far, one is running, none has a pid above
`PROCESS_LIMIT`, and the entry of `sub_process` that is never set is right by chance. -/
theorem children_booked {users : ℤ → ClientData} {raw : ℤ → ℤ} {changes : List Change} {f : Family}
    (hr : Run Family.Step (Family.start users raw) changes f) :
    (∃ f', f.Handles f' ∧ f'.Booked) ↔ (∀ pid, .exit pid ∉ changes) ∧ f.running ≠ [] ∧
      (∀ pid ∈ f.running, pid ≤ PROCESS_LIMIT) ∧
      (raw PROCESS_LIMIT = -1 ∨ PROCESS_LIMIT ∈ f.running) := by
  have hgrown := hr.history (Family.Grown raw) (Family.grown_start users raw)
    fun _ _ _ _ h hs => Family.step_grown h hs
  exact Family.booked_iff hgrown

def Family.blank : Family := .start (fun _ => ⟨0, 0, (0, 0)⟩) fun _ => -1

/-- Two children and a `SIGCHLD` without an exit, as when one is stopped. -/
theorem children_booked_two :
    let f := (Family.blank.arrive ⟨3, (4, 5), 10⟩).arrive ⟨6, (7, 8), 11⟩
    ∃ f', f.Handles f' ∧ f'.Booked := by
  intro f
  have hr : Run Family.Step Family.blank [.arrive ⟨3, (4, 5), 10⟩, .arrive ⟨6, (7, 8), 11⟩] f :=
    .cons (.arrive fun _ => by decide) (.cons (.arrive fun _ => by decide) (.nil _))
  exact (children_booked hr).2 ⟨by simp, by decide, by decide, .inl rfl⟩

/-- The only child exits. -/
theorem last_exit_not_booked : ¬ ∀ (users : ℤ → ClientData) (raw : ℤ → ℤ) (changes : List Change)
    (f : Family), Run Family.Step (Family.start users raw) changes f →
      ∃ f', f.Handles f' ∧ f'.Booked := by
  intro hall
  have hr : Run Family.Step Family.blank [.arrive ⟨3, (4, 5), 10⟩, .exit 10]
      ((Family.blank.arrive ⟨3, (4, 5), 10⟩).exit 10) :=
    .cons (.arrive fun _ => by decide) (.cons (.exit (by decide)) (.nil _))
  obtain ⟨f', hh, -⟩ := hall _ _ _ _ hr
  exact Family.not_handles (by decide) (by decide) hh

end SocketTest.ShmTest
