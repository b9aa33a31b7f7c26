import Mathlib.Data.List.Sort
import Mathlib.Tactic

/-!
# Stable insertion

Elements have a key and a stamp that says when they were inserted. A list is stably sorted when
elements with a smaller key stand first, and of two with equal keys the one inserted earlier.
Inserting a new element behind the keys that are no larger keeps that order. In a list sorted by
keys, the elements up to a bound stand in front.
-/

namespace SocketTest.Lib

variable {α ι : Type*} [LinearOrder ι] {key key' : α → ι} {stamp stamp' : α → ℕ} {xs ys r : List α}
  {t : α} {c : ι}

/-- A smaller key, or an equal one inserted before. -/
def Earlier (key : α → ι) (stamp : α → ℕ) (a b : α) : Prop :=
  key a < key b ∨ key a = key b ∧ stamp a < stamp b

def StableSorted (key : α → ι) (stamp : α → ℕ) (xs : List α) : Prop :=
  xs.Pairwise (Earlier key stamp)

theorem Earlier.le {a b : α} (h : Earlier key stamp a b) : key a ≤ key b := by
  rcases h with h | h
  · exact h.le
  · exact h.1.le

theorem StableSorted.congr (h : StableSorted key stamp xs) (hk : ∀ a ∈ xs, key' a = key a)
    (hs : ∀ a ∈ xs, stamp' a = stamp a) : StableSorted key' stamp' xs := by
  refine List.Pairwise.imp_of_mem ?_ h
  intro a b ha hb hab
  unfold Earlier
  rwa [hk a ha, hk b hb, hs a ha, hs b hb]

theorem StableSorted.keys (h : StableSorted key stamp xs) :
    xs.Pairwise fun a b => key a ≤ key b := h.imp Earlier.le

/-- `t` stands behind every element whose key is not larger. -/
theorem orderedInsert_append (h : ∀ y ∈ ys, ¬ key t < key y) :
    (ys ++ r).orderedInsert (fun s t => key s < key t) t =
      ys ++ r.orderedInsert (fun s t => key s < key t) t := by
  induction ys with
  | nil => rfl
  | cons y ys ih =>
    rw [List.cons_append, List.orderedInsert, if_neg (h y List.mem_cons_self),
      ih fun y hy => h y (List.mem_cons_of_mem _ hy), List.cons_append]

theorem StableSorted.insert (h : StableSorted key stamp xs) (ht : ∀ a ∈ xs, stamp a < stamp t) :
    StableSorted key stamp (xs.orderedInsert (fun s t => key s < key t) t) := by
  induction xs with
  | nil => exact List.pairwise_singleton _ _
  | cons x xs ih =>
    obtain ⟨hx, hxs⟩ := List.pairwise_cons.mp h
    rw [List.orderedInsert]
    by_cases hlt : key t < key x
    · rw [if_pos hlt]
      refine List.pairwise_cons.mpr ⟨?_, h⟩
      intro a ha
      rcases List.mem_cons.mp ha with rfl | ha
      · exact Or.inl hlt
      · exact Or.inl (hlt.trans_le (hx a ha).le)
    · rw [if_neg hlt]
      refine List.pairwise_cons.mpr ⟨?_, ih hxs fun a ha => ht a (List.mem_cons_of_mem _ ha)⟩
      intro a ha
      rcases (List.mem_orderedInsert _).mp ha with rfl | ha
      · rcases lt_or_eq_of_le (not_lt.mp hlt) with hk | hk
        · exact Or.inl hk
        · exact Or.inr ⟨hk, ht x List.mem_cons_self⟩
      · exact hx a ha

/-! ## The elements up to a bound -/

theorem takeWhile_eq_filter (h : xs.Pairwise fun a b => key a ≤ key b) :
    xs.takeWhile (fun a => decide (key a ≤ c)) = xs.filter fun a => decide (key a ≤ c) := by
  induction xs with
  | nil => rfl
  | cons x xs ih =>
    obtain ⟨hx, hxs⟩ := List.pairwise_cons.mp h
    by_cases hc : key x ≤ c
    · simp [hc, ih hxs]
    · have hnone : ∀ a ∈ xs, ¬ key a ≤ c := fun a ha hac => hc ((hx a ha).trans hac)
      simp only [hc, decide_false, Bool.false_eq_true, not_false_eq_true,
        List.takeWhile_cons_of_neg, List.filter_cons_of_neg]
      refine (List.filter_eq_nil_iff.mpr fun a ha => ?_).symm
      simpa using hnone a ha

theorem dropWhile_eq_filter (h : xs.Pairwise fun a b => key a ≤ key b) :
    xs.dropWhile (fun a => decide (key a ≤ c)) = xs.filter fun a => decide (c < key a) := by
  induction xs with
  | nil => rfl
  | cons x xs ih =>
    obtain ⟨hx, hxs⟩ := List.pairwise_cons.mp h
    by_cases hc : key x ≤ c
    · simp [hc, not_lt.mpr hc, ih hxs]
    · have hall : ∀ a ∈ x :: xs, c < key a := by
        intro a ha
        rcases List.mem_cons.mp ha with rfl | ha
        · exact not_le.mp hc
        · exact (not_le.mp hc).trans_le (hx a ha)
      simp only [hc, decide_false, Bool.false_eq_true, not_false_eq_true,
        List.dropWhile_cons_of_neg]
      refine (List.filter_eq_self.mpr fun a ha => ?_).symm
      simpa using hall a ha

end SocketTest.Lib
