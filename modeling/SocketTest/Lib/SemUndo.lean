import Mathlib.Tactic

/-!
# Semaphores with `SEM_UNDO`

For each process the semaphore keeps what its operations have taken, and gives it back when the
process exits. The value and what has been taken keep their sum (`level`), as long as an exit does not
take the value below 0; a semaphore that blocks then has a holder.
-/

namespace SocketTest.Lib

variable {I : Type*} [DecidableEq I]

structure SemUndo (I : Type*) where
  value : ℤ
  /-- `semadj` -/
  adj : I → ℤ

namespace SemUndo

/-- `semop` with `sem_op = k` does not block. -/
def Passes (s : SemUndo I) (k : ℤ) : Prop := 0 ≤ s.value + k

def op (s : SemUndo I) (i : I) (k : ℤ) : SemUndo I :=
  ⟨s.value + k, Function.update s.adj i (s.adj i - k)⟩

/-- The process exits. A value below 0 becomes 0. -/
def exit (s : SemUndo I) (i : I) : SemUndo I :=
  ⟨max 0 (s.value + s.adj i), Function.update s.adj i 0⟩

variable [Fintype I]

def level (s : SemUndo I) : ℤ := s.value + ∑ i, s.adj i

theorem sum_update (f : I → ℤ) (i : I) (k : ℤ) :
    ∑ j, Function.update f i k j = ∑ j, f j - f i + k := by
  rw [Finset.sum_update_of_mem (Finset.mem_univ i),
    ← Finset.add_sum_erase Finset.univ f (Finset.mem_univ i), Finset.sdiff_singleton_eq_erase]
  ring

theorem op_level (s : SemUndo I) (i : I) (k : ℤ) : (s.op i k).level = s.level := by
  show s.value + k + ∑ j, Function.update s.adj i (s.adj i - k) j = _
  rw [sum_update, level]
  ring

theorem exit_level {s : SemUndo I} {i : I} (h : 0 ≤ s.value + s.adj i) :
    (s.exit i).level = s.level := by
  show max 0 (s.value + s.adj i) + ∑ j, Function.update s.adj i 0 j = _
  rw [sum_update, max_eq_right h, level]
  ring

omit [DecidableEq I] in
/-- Somebody holds a semaphore that blocks. -/
theorem exists_holder {s : SemUndo I} (hlevel : s.level = 1) (hblock : ¬ s.Passes (-1)) :
    ∃ i, 0 < s.adj i := by
  by_contra hnone
  have hsum : ∑ i, s.adj i ≤ 0 :=
    Finset.sum_nonpos fun i _ => not_lt.1 fun hi => hnone ⟨i, hi⟩
  rw [level] at hlevel
  rw [Passes] at hblock
  omega

end SemUndo

end SocketTest.Lib
