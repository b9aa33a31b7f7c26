import Mathlib.Tactic

/-!
# Removal by moving the last entry

The first `n` entries of a table are in use. An entry is removed by writing the last one over it
(`moveLast`). A second table that gives the position of each key is updated in two places.
-/

namespace SocketTest.Lib.SwapRemove

variable {α : Type*}

/-- The entries in use. -/
def entries (f : ℕ → α) (n : ℕ) : List α := (List.range n).map f

/-- The entry at `n` written over the one at `k`. -/
def moveLast (f : ℕ → α) (n k : ℕ) : ℕ → α := Function.update f k (f n)

variable {f : ℕ → α} {n k : ℕ}

@[simp] theorem entries_length (f : ℕ → α) (n : ℕ) : (entries f n).length = n := by simp [entries]

theorem entries_succ (f : ℕ → α) (n : ℕ) : entries f (n + 1) = entries f n ++ [f n] := by
  simp [entries, List.range_succ]

theorem mem_entries {a : α} : a ∈ entries f n ↔ ∃ i < n, f i = a := by simp [entries]

theorem entries_congr {g : ℕ → α} (h : ∀ i < n, f i = g i) : entries f n = entries g n :=
  List.map_congr_left fun i hi => h i (List.mem_range.1 hi)

theorem entries_inj (h : (entries f n).Nodup) {i j : ℕ} (hi : i < n) (hj : j < n)
    (he : f i = f j) : i = j :=
  List.inj_on_of_nodup_map h (List.mem_range.2 hi) (List.mem_range.2 hj) he

theorem entries_update (f : ℕ → α) (n k : ℕ) (a : α) :
    entries (Function.update f k a) n = (entries f n).set k a := by
  apply List.ext_getElem (by simp)
  intro i h1 h2
  simp only [entries, List.getElem_map, List.getElem_range, List.getElem_set]
  by_cases hi : i = k
  · rw [hi, Function.update_self, if_pos rfl]
  · rw [Function.update_of_ne hi, if_neg (Ne.symm hi)]

/-- What is removed and what is left are the entries there were. -/
theorem entries_moveLast (hk : k ≤ n) :
    (f k :: entries (moveLast f n k) n).Perm (entries f (n + 1)) := by
  rw [entries_succ]
  rcases Nat.eq_or_lt_of_le hk with rfl | hk
  · have hsame : entries (moveLast f k k) k = entries f k := by
      apply entries_congr
      intro i hi
      rw [moveLast, Function.update_of_ne (by omega)]
    rw [hsame]
    exact (List.perm_append_singleton _ _).symm
  · have hlen : k < (entries f n).length := by rwa [entries_length]
    have hget : (entries f n)[k] = f k := by simp [entries]
    have hsplit : entries f n = (entries f n).take k ++ f k :: (entries f n).drop (k + 1) := by
      rw [← hget, List.getElem_cons_drop, List.take_append_drop]
    rw [moveLast, entries_update, List.set_eq_take_append_cons_drop, if_pos hlen]
    generalize (entries f n).take k = front, (entries f n).drop (k + 1) = back at hsplit ⊢
    rw [hsplit]
    calc List.Perm (f k :: (front ++ f n :: back)) (f k :: f n :: (front ++ back)) :=
          List.perm_middle.cons _
      List.Perm _ (f n :: f k :: (front ++ back)) := List.Perm.swap _ _ _
      List.Perm _ (f n :: (front ++ f k :: back)) := List.perm_middle.symm.cons _
      List.Perm _ (front ++ f k :: back ++ [f n]) := (List.perm_append_singleton _ _).symm

/-- The positions after a removal. The one kept for the key removed is free to be anything. -/
theorem position_moveLast [DecidableEq α] {pos : α → ℤ} (hnd : (entries f (n + 1)).Nodup)
    (hpos : ∀ i < n + 1, pos (f i) = i) (hk : k ≤ n) (gone : ℤ) :
    ∀ i < n, Function.update (Function.update pos (f k) gone) (moveLast f n k k) k
      (moveLast f n k i) = i := by
  intro i hi
  have hinj : ∀ {i j : ℕ}, i < n + 1 → j < n + 1 → f i = f j → i = j := entries_inj hnd
  have hlast : moveLast f n k k = f n := Function.update_self _ _ _
  rw [hlast]
  by_cases hik : i = k
  · rw [hik, hlast, Function.update_self]
  · have hfi : moveLast f n k i = f i := Function.update_of_ne hik _ _
    have hn : f i ≠ f n := fun he => by
      have := hinj (by omega) (by omega) he
      omega
    have hfk : f i ≠ f k := fun he => hik (hinj (by omega) (by omega) he)
    rw [hfi, Function.update_of_ne hn, Function.update_of_ne hfk]
    exact hpos i (by omega)

end SocketTest.Lib.SwapRemove
