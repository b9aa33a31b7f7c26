import Mathlib.Data.List.Sort
import Mathlib.Tactic

/-!
# Doubly linked lists

The links are two functions on addresses, `next` and `prev`. `DSeg next prev b p xs q e` is a
segment: following `next` from `p` visits `xs` and arrives at `q`; the `prev` of the first element
is `b`, and the last element is `e` (`b` when there is none). A null-terminated list is a segment
from `0` to `0`; `DSeg.forward` and `DSeg.backward` read it in the two directions.

Pointer surgery cuts the list (`DSeg.append`), changes the link at a cut (`DSeg.relink_last`,
`DSeg.relink_first`) and glues: `DSeg.insert`, `DSeg.insert_front` and `DSeg.unlink`.
-/

namespace SocketTest.Lib

/-- Following `next` from `p` visits exactly `xs` and arrives at `q`. -/
def Seg (next : ℕ → ℕ) : ℕ → List ℕ → ℕ → Prop
  | p, [], q => p = q
  | p, x :: xs, q => p = x ∧ Seg next (next x) xs q

def DSeg (next prev : ℕ → ℕ) : ℕ → ℕ → List ℕ → ℕ → ℕ → Prop
  | b, p, [], q, e => p = q ∧ e = b
  | b, p, x :: xs, q, e => p = x ∧ prev x = b ∧ DSeg next prev x (next x) xs q e

variable {next prev next' prev' : ℕ → ℕ} {b b' p q q' e e' a t x : ℕ} {xs ys l r : List ℕ}

theorem Seg.append : Seg next p (xs ++ ys) q ↔ ∃ m, Seg next p xs m ∧ Seg next m ys q := by
  induction xs generalizing p with
  | nil => simp [Seg]
  | cons x xs ih => simp only [List.cons_append, Seg, ih, and_assoc, exists_and_left]

/-- A walk that stops where it first meets `q` visits one sequence only. -/
theorem Seg.unique (h : Seg next p xs q) (h' : Seg next p ys q) (hx : q ∉ xs) (hy : q ∉ ys) :
    xs = ys := by
  induction xs generalizing p ys with
  | nil =>
    cases ys with
    | nil => rfl
    | cons y ys =>
      obtain rfl : p = q := h
      exact absurd (h'.1 ▸ List.mem_cons_self) hy
  | cons x xs ih =>
    obtain ⟨rfl, h⟩ := h
    cases ys with
    | nil =>
      obtain rfl : p = q := h'
      exact absurd List.mem_cons_self hx
    | cons y ys =>
      obtain ⟨rfl, h'⟩ := h'
      rw [ih h h' (fun hq => hx (List.mem_cons_of_mem _ hq)) fun hq => hy (List.mem_cons_of_mem _ hq)]

theorem DSeg.append :
    DSeg next prev b p (xs ++ ys) q e ↔
      ∃ m c, DSeg next prev b p xs m c ∧ DSeg next prev c m ys q e := by
  induction xs generalizing b p with
  | nil => simp [DSeg]
  | cons x xs ih => simp only [List.cons_append, DSeg, ih, and_assoc, exists_and_left]

theorem DSeg.singleton : DSeg next prev b p [x] q e ↔ p = x ∧ prev x = b ∧ next x = q ∧ e = x :=
  Iff.rfl

/-- A segment is determined by the links of its elements. -/
theorem DSeg.congr (h : DSeg next prev b p xs q e) (hn : ∀ y ∈ xs, next' y = next y)
    (hp : ∀ y ∈ xs, prev' y = prev y) : DSeg next' prev' b p xs q e := by
  induction xs generalizing b p with
  | nil => exact h
  | cons x xs ih =>
    obtain ⟨hpx, hbx, ht⟩ := h
    refine ⟨hpx, (hp x List.mem_cons_self).trans hbx, ?_⟩
    rw [hn x List.mem_cons_self]
    exact ih ht (fun y hy => hn y (List.mem_cons_of_mem _ hy))
      fun y hy => hp y (List.mem_cons_of_mem _ hy)

theorem DSeg.forward (h : DSeg next prev b p xs q e) : Seg next p xs q := by
  induction xs generalizing b p with
  | nil => exact h.1
  | cons x xs ih => exact ⟨h.1, ih h.2.2⟩

theorem DSeg.backward (h : DSeg next prev b p xs q e) : Seg prev e xs.reverse b := by
  induction xs generalizing b p with
  | nil => exact h.2
  | cons x xs ih =>
    rw [List.reverse_cons, Seg.append]
    exact ⟨x, ih h.2.2, rfl, h.2.1⟩

theorem DSeg.last_eq (h : DSeg next prev b p (l ++ [a]) q e) : e = a ∧ next a = q := by
  obtain ⟨m, c, -, h2⟩ := DSeg.append.mp h
  obtain ⟨-, -, h3, h4⟩ := DSeg.singleton.mp h2
  exact ⟨h4, h3⟩

/-! ## Changing the link at a cut -/

theorem DSeg.relink_last (h : DSeg next prev b p (l ++ [a]) q e) (hn : ∀ y ∈ l, next' y = next y)
    (ha : next' a = q') (hp : ∀ y ∈ l ++ [a], prev' y = prev y) :
    DSeg next' prev' b p (l ++ [a]) q' a := by
  obtain ⟨m, c, h1, h2⟩ := DSeg.append.mp h
  obtain ⟨hm, hc, -, -⟩ := DSeg.singleton.mp h2
  refine DSeg.append.mpr ⟨m, c, h1.congr hn fun y hy => hp y (List.mem_append_left _ hy), ?_⟩
  exact DSeg.singleton.mpr ⟨hm, (hp a (by simp)).trans hc, ha, rfl⟩

theorem DSeg.relink_first (h : DSeg next prev b p (x :: xs) q e)
    (hn : ∀ y ∈ x :: xs, next' y = next y) (hx : prev' x = b') (hp : ∀ y ∈ xs, prev' y = prev y) :
    DSeg next' prev' b' p (x :: xs) q e := by
  refine ⟨h.1, hx, ?_⟩
  rw [hn x List.mem_cons_self]
  exact h.2.2.congr (fun y hy => hn y (List.mem_cons_of_mem _ hy)) hp

/-! ## Surgery -/

/-- Insertion of `t` after `a`: the four links are `a.next`, `t.prev`, `t.next` and, when `a` is not
the last element, the `prev` of the element after `a`. -/
theorem DSeg.insert (h : DSeg next prev b p (l ++ [a] ++ r) 0 e) {m : ℕ} (hm : next a = m)
    (hna : next' a = t) (hnt : next' t = m) (hpt : prev' t = a)
    (hn : ∀ y ∈ l ++ r, next' y = next y) (hpm : r ≠ [] → prev' m = t)
    (hp : ∀ y ∈ l ++ [a] ++ r, y ≠ m → prev' y = prev y) (hmem : m ∉ l ++ [a])
    (hnd : m ∉ r.tail) (he : e' = if r = [] then t else e) :
    DSeg next' prev' b p (l ++ [a] ++ t :: r) 0 e' := by
  obtain ⟨m', c, h1, h2⟩ := DSeg.append.mp h
  obtain ⟨hca, hm'⟩ := DSeg.last_eq h1
  have hmm : m' = m := hm'.symm.trans hm
  subst hmm
  have h1' : DSeg next' prev' b p (l ++ [a]) t a :=
    h1.relink_last (fun y hy => hn y (List.mem_append_left _ hy)) hna fun y hy =>
      hp y (List.mem_append_left _ hy) fun hym => hmem (hym ▸ hy)
  refine DSeg.append.mpr ⟨t, a, h1', rfl, hpt, ?_⟩
  rw [hnt]
  cases r with
  | nil => exact ⟨h2.1, he⟩
  | cons x r =>
    have hx : m' = x := h2.1
    rw [he, if_neg (List.cons_ne_nil x r)]
    refine h2.relink_first (fun y hy => hn y (List.mem_append_right _ hy)) ?_ ?_
    · rw [← hx]; exact hpm (List.cons_ne_nil x r)
    · intro y hy
      refine hp y (List.mem_append_right _ (List.mem_cons_of_mem _ hy)) ?_
      intro hym
      exact hnd (hym ▸ hy)

/-- Insertion of `t` before the first element `x`. -/
theorem DSeg.insert_front (h : DSeg next prev b p (x :: xs) q e) (hnt : next' t = p)
    (hpt : prev' t = b) (hpx : prev' x = t) (hn : ∀ y ∈ x :: xs, next' y = next y)
    (hp : ∀ y ∈ xs, prev' y = prev y) : DSeg next' prev' b t (t :: x :: xs) q e := by
  refine ⟨rfl, hpt, ?_⟩
  rw [hnt]
  exact h.relink_first hn hpx hp

/-- The neighbours of an element. -/
theorem DSeg.links (h : DSeg next prev b p (l ++ t :: r) q e) :
    prev t = l.getLastD b ∧ next t = r.headD q := by
  obtain ⟨m, c, h1, h2⟩ := DSeg.append.mp h
  obtain ⟨-, hb, h3⟩ := h2
  constructor
  · rw [hb]
    rcases List.eq_nil_or_concat l with rfl | ⟨l, a, rfl⟩
    · exact h1.2
    · rw [List.concat_eq_append] at h1 ⊢
      rw [(DSeg.last_eq h1).1, List.getLastD_eq_getLast?, List.getLast?_concat, Option.getD_some]
  · cases r with
    | nil => exact h3.1
    | cons x r => exact h3.1

/-- Removal of `t` from a null-terminated list: the link of its predecessor, when it has one, goes to
its successor, and the link of its successor, when it has one, to its predecessor. -/
theorem DSeg.unlink (h : DSeg next prev 0 p (l ++ t :: r) 0 e) (hnd : (l ++ t :: r).Nodup)
    (h0 : 0 ∉ l ++ r) (hn : ∀ y ∈ l ++ r, y ≠ prev t → next' y = next y)
    (hna : l ≠ [] → next' (prev t) = next t)
    (hp : ∀ y ∈ l ++ r, y ≠ next t → prev' y = prev y)
    (hpx : r ≠ [] → prev' (next t) = prev t) :
    DSeg next' prev' 0 (if l = [] then next t else p) (l ++ r) 0 (if r = [] then prev t else e) := by
  obtain ⟨hpt, hnt⟩ := h.links
  obtain ⟨m, c, h1, -, hc, h3⟩ := DSeg.append.mp h
  rw [← hc] at h1
  refine DSeg.append.mpr ⟨next t, prev t, ?_, ?_⟩
  · rcases List.eq_nil_or_concat l with rfl | ⟨l, a, rfl⟩
    · exact ⟨if_pos rfl, h1.2⟩
    · rw [List.concat_eq_append] at *
      have hpa : prev t = a := (DSeg.last_eq h1).1
      rw [if_neg (by simp), hpa]
      refine h1.relink_last (fun y hy => hn y (by simp [hy]) ?_) (hpa ▸ hna (by simp)) ?_
      · grind
      · intro y hy
        refine hp y (List.mem_append_left _ hy) ?_
        rw [hnt]
        cases r <;> grind
  · cases r with
    | nil => exact ⟨h3.1, if_pos rfl⟩
    | cons x r =>
      have hnx : next t = x := h3.1
      rw [if_neg (List.cons_ne_nil x r)]
      refine h3.relink_first (fun y hy => hn y (List.mem_append_right _ hy) ?_) ?_ ?_
      · rw [hpt]
        rcases List.eq_nil_or_concat l with rfl | ⟨l, a, rfl⟩ <;> grind
      · rw [← hnx]; exact hpx (List.cons_ne_nil x r)
      · exact fun y hy => hp y (by simp [hy]) (by grind)

end SocketTest.Lib
