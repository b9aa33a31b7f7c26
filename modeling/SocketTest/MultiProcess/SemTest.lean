import SocketTest.Lib.Run
import SocketTest.Lib.SemUndo
import SocketTest.Lib.Settles
import SocketTest.Lib.Threads

/-!
# The binary semaphore of `sem_test`

A parent and the child it has forked take the semaphore with `pv`, sleep, and give it back; the
parent then waits for the child and removes the semaphore. Either can be killed at any point, and
`SEM_UNDO` gives back what it held. `pv` does not look at what `semop` returns: a process that is stopped
and continued while it waits goes on with `EINTR`, gives back what it has not taken, and `SEM_UNDO` takes
that away again. When `fork` fails there is no child, and the set stays.

1. The two processes and the steps.
2. `mutual_exclusion`: only behind such an `EINTR` are both between their operations.
3. `finishes`: left alone, both come to their end, and the semaphore is removed by a parent that is
   not killed.
-/

namespace SocketTest.MultiProcess

open SocketTest.Lib

/-! ## 1. The processes -/

inductive Process
  | parent
  | child
  deriving DecidableEq

instance : Fintype Process := ⟨{.parent, .child}, fun i => by cases i <;> decide⟩

/-- Before `pv(sem_id, -1)`, behind it, behind `pv(sem_id, 1)`, behind `waitpid`, at the end, or
killed. -/
inductive Point
  | entering
  | holding
  | released
  | waited
  | returned
  | killed
  deriving DecidableEq

def Point.Over (p : Point) : Prop := p = .returned ∨ p = .killed

/-- What a process at this point has taken, and has not given back. -/
def Point.taken : Point → Bool → ℤ
  | .holding, true => 1
  | .released, false | .waited, false => -1
  | _, _ => 0

/-- The steps left. -/
def Point.rank : Point → ℕ
  | .entering => 4
  | .holding => 3
  | .released => 2
  | .waited => 1
  | .returned | .killed => 0

structure SemTest where
  sem : SemUndo Process
  /-- `IPC_RMID` -/
  removed : Bool
  pc : Process → Point
  /-- `pv(sem_id, -1)` has not failed -/
  took : Process → Bool

namespace SemTest

/-- `SETVAL` to 1, and `fork`. -/
def start : SemTest := ⟨⟨1, fun _ => 0⟩, false, fun _ => .entering, fun _ => false⟩

def move (s : SemTest) (i : Process) (p : Point) : Process → Point := Function.update s.pc i p

/-- `pv` does not look at what `semop` returns: without the semaphore it does nothing. -/
def pv (s : SemTest) (i : Process) (op : ℤ) : SemUndo Process :=
  if s.removed then s.sem else s.sem.op i op

/-- The program of the two processes. -/
inductive Proceed (s : SemTest) : SemTest → Prop
  | enter {i : Process} (hp : s.pc i = .entering) (h : s.removed = true ∨ s.sem.Passes (-1)) :
      Proceed s { s with
        sem := s.pv i (-1)
        pc := s.move i .holding
        took := Function.update s.took i !s.removed }
  | leave {i : Process} (hp : s.pc i = .holding) :
      Proceed s { s with sem := s.pv i 1, pc := s.move i .released }
  | exit (hp : s.pc .child = .released) :
      Proceed s { s with sem := s.sem.exit .child, pc := s.move .child .returned }
  | waitpid (hp : s.pc .parent = .released) (h : (s.pc .child).Over) :
      Proceed s { s with pc := s.move .parent .waited }
  | remove (hp : s.pc .parent = .waited) :
      Proceed s { s with
        sem := s.sem.exit .parent
        removed := true
        pc := s.move .parent .returned }

inductive Kill (s : SemTest) : SemTest → Prop
  | kill {i : Process} (h : ¬ (s.pc i).Over) :
      Kill s { s with sem := s.sem.exit i, pc := s.move i .killed }

/-- The process is stopped and continued while it waits in `pv(sem_id, -1)`. -/
inductive Interrupt (s : SemTest) (i : Process) : SemTest → Prop
  | interrupt (hp : s.pc i = .entering) (h : s.removed = false ∧ ¬ s.sem.Passes (-1)) :
      Interrupt s i { s with
        pc := s.move i .holding
        took := Function.update s.took i false }

inductive Cause
  | program
  | kill
  | interrupt (i : Process)

def Step (s : SemTest) : Cause → SemTest → Prop
  | .program => Proceed s
  | .kill => Kill s
  | .interrupt i => Interrupt s i

variable {s s' : SemTest} {i j : Process} {cs : List Cause} {c : Cause}

/-! ## 2. One at a time -/

@[simp] theorem move_self (s : SemTest) (i : Process) (p : Point) : s.move i p i = p :=
  Function.update_self _ _ _

/-- The semaphore holds what the points of the processes say. -/
structure Counts (sem : SemUndo Process) (pc : Process → Point) (took : Process → Bool) : Prop where
  value : 0 ≤ sem.value
  level : sem.level = 1
  adj : ∀ i, sem.adj i = (pc i).taken (took i)

/-- The parent removes the semaphore behind the child's end. -/
structure Ordered (s : SemTest) : Prop where
  removed : s.removed = true ↔ s.pc .parent = .returned
  child : s.pc .child ≠ .waited
  waited : s.pc .parent = .waited ∨ s.pc .parent = .returned → (s.pc .child).Over

structure Inv (s : SemTest) : Prop where
  counts : Counts s.sem s.pc s.took
  ordered : Ordered s

theorem inv_start : Inv start where
  counts := ⟨by decide, rfl, fun _ => rfl⟩
  ordered := ⟨by decide, by decide, by rintro (h | h) <;> cases h⟩

theorem level_pair (sem : SemUndo Process) :
    sem.level = sem.value + (sem.adj .parent + sem.adj .child) := by
  show sem.value + ∑ i ∈ {Process.parent, Process.child}, sem.adj i = _
  rw [Finset.sum_pair (by decide)]

theorem taken_le_one (p : Point) (took : Bool) : p.taken took ≤ 1 := by
  cases p <;> cases took <;> decide

theorem taken_eq_one {p : Point} {took : Bool} : 0 < p.taken took ↔ p = .holding ∧ took = true := by
  cases p <;> cases took <;> decide

/-- One process goes on, and the semaphore changes with it. -/
theorem Counts.change (h : Counts s.sem s.pc s.took) {sem : SemUndo Process} (hvalue : 0 ≤ sem.value)
    (hlevel : sem.level = s.sem.level) {k : ℤ} (hadj : sem.adj = Function.update s.sem.adj i k)
    {p : Point} {b : Bool} (htaken : p.taken b = k) :
    Counts sem (s.move i p) (Function.update s.took i b) := by
  refine ⟨hvalue, hlevel.trans h.level, fun j => ?_⟩
  show sem.adj j = (Function.update s.pc i p j).taken (Function.update s.took i b j)
  rw [hadj]
  by_cases hj : j = i
  · subst hj
    rw [Function.update_self, Function.update_self, Function.update_self, htaken]
  · rw [Function.update_of_ne hj, Function.update_of_ne hj, Function.update_of_ne hj]
    exact h.adj j

theorem Counts.op (h : Counts s.sem s.pc s.took) {k : ℤ} (hk : 0 ≤ s.sem.value + k) {p : Point}
    {b : Bool} (htaken : p.taken b = (s.pc i).taken (s.took i) - k) :
    Counts (s.sem.op i k) (s.move i p) (Function.update s.took i b) :=
  h.change hk (SemUndo.op_level s.sem i k) rfl (htaken.trans (by rw [h.adj]))

theorem Counts.exit (h : Counts s.sem s.pc s.took) (i : Process) {p : Point}
    (htaken : p.taken (s.took i) = 0) : Counts (s.sem.exit i) (s.move i p) s.took := by
  -- what the other process has taken leaves enough to undo
  have hsum : 0 ≤ s.sem.value + s.sem.adj i := by
    have hlevel := (level_pair s.sem).symm.trans h.level
    have hle (j : Process) : s.sem.adj j ≤ 1 := h.adj j ▸ taken_le_one _ _
    have hparent := hle .parent
    have hchild := hle .child
    cases i <;> omega
  have hsame : Function.update s.took i (s.took i) = s.took := Function.update_eq_self _ _
  rw [← hsame]
  exact h.change (le_max_left _ _) (SemUndo.exit_level hsum) rfl htaken

/-- The semaphore is there as long as a process can use it. -/
theorem Ordered.not_removed (h : Ordered s) (hp : ¬ (s.pc i).Over) : s.removed = false := by
  by_contra hr
  have hreturned := h.removed.1 (Bool.not_eq_false _ ▸ hr)
  cases i with
  | parent => exact hp (.inl hreturned)
  | child => exact hp (h.waited (.inr hreturned))

theorem Ordered.pv (h : Ordered s) (hp : ¬ (s.pc i).Over) (k : ℤ) : s.pv i k = s.sem.op i k := by
  rw [SemTest.pv, h.not_removed hp]
  rfl

/-- A process goes on to a point behind which it does not have to wait for the other. -/
theorem Ordered.move (h : Ordered s) (hp : ¬ (s.pc i).Over) {p : Point} (hw : p ≠ .waited)
    (hr : p = .returned → i = .child) (sem : SemUndo Process) (took : Process → Bool) :
    Ordered { s with sem := sem, pc := s.move i p, took := took } := by
  cases i with
  | parent =>
    have hne : p ≠ .returned := fun heq => Process.noConfusion (hr heq)
    refine ⟨?_, h.child, ?_⟩
    · refine iff_of_false (fun hremoved => hp (.inl (h.removed.1 hremoved))) ?_
      exact fun heq => hne ((s.move_self .parent p).symm.trans heq)
    · rintro (heq | heq)
      · exact absurd ((s.move_self .parent p).symm.trans heq) hw
      · exact absurd ((s.move_self .parent p).symm.trans heq) hne
  | child =>
    refine ⟨h.removed, fun heq => hw ((s.move_self .child p).symm.trans heq), ?_⟩
    exact fun hparent => absurd (h.waited hparent) hp

theorem not_over {p q : Point} (h : p = q) (hq : q.rank ≠ 0) : ¬ p.Over := by
  rintro (hp | hp)
  · exact hq (h.symm.trans hp ▸ rfl)
  · exact hq (h.symm.trans hp ▸ rfl)

theorem Inv.proceed (h : Inv s) (hs : Proceed s s') : Inv s' := by
  obtain ⟨hc, ho⟩ := h
  cases hs with
  | @enter i hp hpass =>
    have hover := not_over hp (by decide)
    have hremoved := ho.not_removed hover
    have hk : s.sem.Passes (-1) := hpass.resolve_left (hremoved ▸ Bool.false_ne_true)
    refine ⟨?_, ho.move hover Point.noConfusion Point.noConfusion _ _⟩
    show Counts (s.pv i (-1)) _ (Function.update s.took i !s.removed)
    rw [ho.pv hover, hremoved]
    refine hc.op hk ?_
    rw [hp]
    rfl
  | @leave i hp =>
    have hover := not_over hp (by decide)
    refine ⟨?_, ho.move hover Point.noConfusion Point.noConfusion _ _⟩
    show Counts (s.pv i 1) _ s.took
    have hvalue := hc.value
    have hsame : Function.update s.took i (s.took i) = s.took := Function.update_eq_self _ _
    rw [ho.pv hover, ← hsame]
    refine hc.op (by omega) ?_
    rw [hp]
    cases s.took i <;> rfl
  | exit hp =>
    exact ⟨hc.exit .child rfl,
      ho.move (not_over hp (by decide)) Point.noConfusion (fun _ => rfl) _ _⟩
  | waitpid hp hchild =>
    have hremoved : s.removed = false := ho.not_removed (not_over hp (by decide))
    refine ⟨⟨hc.value, hc.level, fun j => (hc.adj j).trans ?_⟩, ⟨?_, ho.child, fun _ => hchild⟩⟩
    · show (s.pc j).taken (s.took j) = (s.move .parent .waited j).taken (s.took j)
      cases j with
      | parent =>
        rw [hp, move_self]
        cases s.took .parent <;> rfl
      | child => rfl
    · refine iff_of_false (hremoved ▸ Bool.false_ne_true) ?_
      exact fun heq => Point.noConfusion ((s.move_self .parent _).symm.trans heq)
  | remove hp =>
    refine ⟨hc.exit .parent rfl, ⟨?_, ho.child, fun _ => ho.waited (.inl hp)⟩⟩
    exact iff_of_true rfl (s.move_self .parent _)

theorem Inv.step (h : Inv s) (hs : Step s c s') : Inv s' := by
  cases c with
  | program => exact h.proceed hs
  | kill => cases hs with
    | kill hp =>
      exact ⟨h.counts.exit _ rfl, h.ordered.move hp Point.noConfusion Point.noConfusion _ _⟩
  | interrupt i => cases hs with
    | interrupt hp _ =>
      refine ⟨?_, h.ordered.move (not_over hp (by decide)) Point.noConfusion Point.noConfusion _ _⟩
      have hnone : s.sem.adj i = 0 := by
        rw [h.counts.adj, hp]
        rfl
      refine h.counts.change h.counts.value rfl (k := 0) ?_ rfl
      rw [← hnone, Function.update_eq_self]

theorem inv_run (hr : Run Step start cs s) : Inv s :=
  hr.invariant (fun _ _ _ => Inv.step) inv_start

/-- A process has gone on without the semaphore only behind an interrupted `semop`. -/
theorem interrupted_of_run (hr : Run Step start cs s) (hp : s.pc i = .holding)
    (htook : s.took i = false) : .interrupt i ∈ cs := by
  refine (hr.history (fun cs s => Inv s ∧ ∀ i, s.pc i = .holding → s.took i = false →
    .interrupt i ∈ cs) ⟨inv_start, fun i hp => Point.noConfusion hp⟩ ?_).2 i hp htook
  rintro cs s c t ⟨hinv, ih⟩ hs
  refine ⟨hinv.step hs, fun i hp htook => ?_⟩
  -- a step of another process, or one to another point
  have hother {j : Process} {p : Point} {b : Bool} (hp : s.move j p i = .holding)
      (hb : Function.update s.took j b i = false) (hnew : p = .holding → b = false → j = i →
        .interrupt i ∈ cs ++ [c]) : .interrupt i ∈ cs ++ [c] := by
    by_cases hij : i = j
    · subst hij
      rw [move, Function.update_self] at hp
      rw [Function.update_self] at hb
      exact hnew hp hb rfl
    · rw [move, Function.update_of_ne hij] at hp
      rw [Function.update_of_ne hij] at hb
      exact List.mem_append_left _ (ih i hp hb)
  have hsame {j : Process} (hb : s.took i = false) : Function.update s.took j (s.took j) i = false := by
    rwa [Function.update_eq_self]
  cases c with
  | program => cases hs with
    | @enter j hj _ =>
      have hremoved := hinv.ordered.not_removed (not_over hj (by decide))
      exact hother hp htook fun _ hb _ => absurd (hremoved ▸ hb) Bool.noConfusion
    | leave _ | exit _ | waitpid _ _ | remove _ => exact hother hp (hsame htook) nofun
  | kill => cases hs with
    | kill _ => exact hother hp (hsame htook) nofun
  | interrupt j => cases hs with
    | interrupt _ _ =>
      exact hother hp htook fun _ _ hji => hji ▸ List.mem_append_right _ List.mem_cons_self

/-- Whatever is killed on the way: when the two processes are both between their operations, one of them
has gone on from a `semop` that was interrupted, and has not taken the semaphore. -/
theorem mutual_exclusion (hr : Run Step start cs s) (hparent : s.pc .parent = .holding)
    (hchild : s.pc .child = .holding) : ∃ i, .interrupt i ∈ cs ∧ s.took i = false := by
  have hc := (inv_run hr).counts
  have htook : s.took .parent = false ∨ s.took .child = false := by
    by_contra hboth
    simp only [not_or, Bool.not_eq_false] at hboth
    have hlevel := (level_pair s.sem).symm.trans hc.level
    have hvalue := hc.value
    have hfirst := hc.adj .parent
    have hsecond := hc.adj .child
    rw [hparent, hboth.1] at hfirst
    rw [hchild, hboth.2] at hsecond
    rw [hfirst, hsecond] at hlevel
    have htwo : Point.holding.taken true + Point.holding.taken true = 2 := rfl
    omega
  rcases htook with hb | hb
  · exact ⟨.parent, interrupted_of_run hr hparent hb, hb⟩
  · exact ⟨.child, interrupted_of_run hr hchild hb, hb⟩

/-- The parent holds the semaphore. -/
def parentHolds : SemTest :=
  { start with
    sem := start.pv .parent (-1)
    pc := start.move .parent .holding
    took := Function.update start.took .parent true }

theorem parentHolds_step : Step start .program parentHolds :=
  Proceed.enter rfl (.inr (show (0 : ℤ) ≤ 1 + -1 by decide))

/-- The child waits, and is stopped and continued. -/
theorem mutual_exclusion_interrupted : ∃ i, .interrupt i ∈ [Cause.program, .interrupt .child] ∧
    Function.update parentHolds.took .child false i = false := by
  have hinterrupt : Step parentHolds (.interrupt .child)
      { parentHolds with
        pc := parentHolds.move .child .holding
        took := Function.update parentHolds.took .child false } :=
    Interrupt.interrupt rfl ⟨rfl, show ¬ (0 : ℤ) ≤ 0 + -1 by decide⟩
  exact mutual_exclusion (.cons parentHolds_step (.single hinterrupt)) rfl rfl

/-! ## 3. The end -/

def rank (s : SemTest) : ℕ := (s.pc .parent).rank + (s.pc .child).rank

theorem move_rank (s : SemTest) (i : Process) {p : Point} (hlt : p.rank < (s.pc i).rank)
    (sem : SemUndo Process) (removed : Bool) (took : Process → Bool) :
    rank ⟨sem, removed, s.move i p, took⟩ < s.rank := by
  cases i with
  | parent =>
    show (s.move .parent p .parent).rank + (s.pc .child).rank < _
    rw [move_self]
    exact Nat.add_lt_add_right hlt _
  | child =>
    show (s.pc .parent).rank + (s.move .child p .child).rank < _
    rw [move_self]
    exact Nat.add_lt_add_left hlt _

theorem proceed_rank (hs : Proceed s s') : s'.rank < s.rank := by
  cases hs with
  | enter hp | leave hp | exit hp | waitpid hp | remove hp =>
    exact s.move_rank _ (hp ▸ by decide) _ _ _

/-- Both have come to their end, and the semaphore is removed unless the parent has been killed. -/
structure Finished (s : SemTest) : Prop where
  ended : ∀ i, (s.pc i).Over
  removed : s.removed = true ↔ s.pc .parent ≠ .killed

theorem Inv.finished (h : Inv s) (hstuck : Stuck Proceed s) : Finished s := by
  have hholding (i : Process) : s.pc i ≠ .holding := fun hp => hstuck _ (.leave hp)
  have hentering (i : Process) : s.pc i ≠ .entering := by
    intro hp
    by_cases hpass : s.sem.Passes (-1)
    · exact hstuck _ (.enter hp (.inr hpass))
    · obtain ⟨j, hj⟩ := SemUndo.exists_holder h.counts.level hpass
      rw [h.counts.adj j] at hj
      exact hholding j (taken_eq_one.1 hj).1
  have hchild : (s.pc .child).Over := by
    cases hp : s.pc .child with
    | entering => exact absurd hp (hentering _)
    | holding => exact absurd hp (hholding _)
    | released => exact absurd (.exit hp) (hstuck _)
    | waited => exact absurd hp h.ordered.child
    | returned => exact .inl rfl
    | killed => exact .inr rfl
  have hparent : (s.pc .parent).Over := by
    cases hp : s.pc .parent with
    | entering => exact absurd hp (hentering _)
    | holding => exact absurd hp (hholding _)
    | released => exact absurd (.waitpid hp hchild) (hstuck _)
    | waited => exact absurd (.remove hp) (hstuck _)
    | returned => exact .inl rfl
    | killed => exact .inr rfl
  refine ⟨fun i => by cases i <;> assumption, h.ordered.removed.trans ⟨?_, hparent.resolve_right⟩⟩
  intro hreturned hkilled
  exact Point.noConfusion (hreturned.symm.trans hkilled)

/-- Left alone at any time, the processes come to their end: neither waits for the other forever. -/
theorem finishes (hr : Run Step start cs s) : Settles Proceed Finished s :=
  .of_decreasing rank (I := Inv) (fun _ _ => Inv.proceed) (fun _ _ _ => proceed_rank)
    (fun _ => Inv.finished) (inv_run hr)

/-- The parent is killed while it holds the semaphore. -/
def parentKilled : SemTest :=
  { parentHolds with sem := parentHolds.sem.exit .parent, pc := parentHolds.move .parent .killed }

theorem finishes_parentKilled : Settles Proceed Finished parentKilled := by
  have hkill : Step parentHolds .kill parentKilled :=
    Kill.kill (not_over (q := .holding) rfl (by decide))
  exact finishes (.cons parentHolds_step (.single hkill))

end SemTest

end SocketTest.MultiProcess
