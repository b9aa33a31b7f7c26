import Mathlib.Data.Fintype.EquivFin
import Mathlib.Data.Nat.Find
import Mathlib.Tactic

/-!
# The lowest number not in use

`lowestFree s` is the least natural number outside the finite set `s`, as a kernel gives out
descriptors. It is never above the number of those in use (`lowestFree_le_card`), and among the
numbers below `n` there is none left exactly when all of them are in use (`lowestFree_lt_iff`).
-/

namespace SocketTest.Lib

def lowestFree (s : Finset ℕ) : ℕ := Nat.find (Infinite.exists_notMem_finset s)

variable {s : Finset ℕ} {n : ℕ}

theorem lowestFree_notMem (s : Finset ℕ) : lowestFree s ∉ s :=
  Nat.find_spec (Infinite.exists_notMem_finset s)

theorem mem_of_lt_lowestFree (h : n < lowestFree s) : n ∈ s :=
  not_not.1 (Nat.find_min (Infinite.exists_notMem_finset s) h)

theorem lowestFree_le (h : n ∉ s) : lowestFree s ≤ n := not_lt.1 (mt mem_of_lt_lowestFree h)

theorem le_lowestFree (h : Finset.range n ⊆ s) : n ≤ lowestFree s := by
  by_contra hlt
  exact lowestFree_notMem s (h (Finset.mem_range.2 (not_le.1 hlt)))

theorem lowestFree_range (n : ℕ) : lowestFree (Finset.range n) = n :=
  le_antisymm (lowestFree_le Finset.notMem_range_self) (le_lowestFree subset_rfl)

theorem lowestFree_le_card (s : Finset ℕ) : lowestFree s ≤ s.card := by
  have hsub : Finset.range (lowestFree s) ⊆ s :=
    fun _ h => mem_of_lt_lowestFree (Finset.mem_range.1 h)
  calc lowestFree s = (Finset.range (lowestFree s)).card := (Finset.card_range _).symm
    _ ≤ s.card := Finset.card_le_card hsub

theorem lowestFree_lt_iff (h : s ⊆ Finset.range n) : lowestFree s < n ↔ s.card < n := by
  refine ⟨fun hlt => ?_, (lowestFree_le_card s).trans_lt⟩
  by_contra hcard
  have heq : s = Finset.range n :=
    Finset.eq_of_subset_of_card_le h (by rw [Finset.card_range]; exact not_lt.1 hcard)
  rw [heq, lowestFree_range] at hlt
  exact lt_irrefl n hlt

end SocketTest.Lib
