import SocketTest.Lib.LinkedList
import SocketTest.Lib.Memory

/-!
# Every object deleted once

`m.made p` counts the objects there have been at `p`: the deleted ones, and the live one. Only
`create` adds to it, and an operation that does not allocate leaves it as it is unless it faults
(`Conserves`). Where the objects at the end are those of the beginning, `made` is then the number of
deletions. `freeAll` is the loop of a destructor that follows a list.
-/

namespace SocketTest.Lib.Mem

variable {α : Type} {m m' m'' : Mem α} {p : Ptr}

/-- The objects there have been at `p`. -/
def made (m : Mem α) (p : Ptr) : ℕ := m.deleted.count p + (m.live p).toNat

theorem made_create (a : α) (h : m.live p = false) :
    (m.create p a).made = Function.update m.made p (m.made p + 1) := by
  funext q
  by_cases hq : q = p
  · subst hq
    rw [Function.update_self]
    unfold made
    rw [create_live, Function.update_self, h]
    rfl
  · rw [Function.update_of_ne hq]
    unfold made
    rw [create_live, Function.update_of_ne hq]
    rfl

/-- The deletions at the end, when the objects left are those of the beginning. -/
theorem count_deleted (hlive : m'.live p = m.live p) {n : ℕ} (hmade : m'.made p = m.made p + n) :
    m'.deleted.count p = m.deleted.count p + n := by
  unfold made at hmade
  rw [hlive] at hmade
  omega

/-- `m'` has the faults of `m` and maybe more; if not, nothing was allocated or lost. -/
def Conserves (m m' : Mem α) : Prop :=
  ∃ fs, m'.faults = m.faults ++ fs ∧ (fs = [] → m'.made = m.made)

namespace Conserves

theorem refl (m : Mem α) : m.Conserves m := ⟨[], (List.append_nil _).symm, fun _ => rfl⟩

theorem trans (h : m.Conserves m') (h' : m'.Conserves m'') : m.Conserves m'' := by
  obtain ⟨fs, hfs, hm⟩ := h
  obtain ⟨gs, hgs, hm'⟩ := h'
  refine ⟨fs ++ gs, by rw [hgs, hfs, List.append_assoc], fun hnil => ?_⟩
  obtain ⟨hf, hg⟩ := List.append_eq_nil_iff.mp hnil
  exact (hm' hg).trans (hm hf)

theorem made_eq (h : m.Conserves m') (hf : m'.faults = []) : m'.made = m.made := by
  obtain ⟨fs, hfs, hm⟩ := h
  rw [hf] at hfs
  exact hm (List.append_eq_nil_iff.mp hfs.symm).2

end Conserves

theorem fault_conserves (m : Mem α) (f : Fault) : m.Conserves (m.fault f) :=
  ⟨[f], rfl, fun h => absurd h (List.cons_ne_nil f [])⟩

theorem check_conserves (m : Mem α) (p : Ptr) : m.Conserves (m.check p) := by
  unfold check
  split_ifs
  · exact fault_conserves m .null
  · exact .refl m
  · exact fault_conserves m (.dangling p)

theorem modify_conserves (m : Mem α) (p : Ptr) (f : α → α) : m.Conserves (m.modify p f) := by
  obtain ⟨fs, hfs, hm⟩ := check_conserves m p
  exact ⟨fs, hfs, hm⟩

theorem delete_conserves (m : Mem α) (p : Ptr) : m.Conserves (m.delete p) := by
  by_cases h0 : p = 0
  · rw [h0]
    exact .refl m
  by_cases hl : m.live p = true
  · refine ⟨[], by rw [delete_faults ⟨h0, hl⟩, List.append_nil], fun _ => ?_⟩
    funext q
    unfold made
    rw [delete_live h0, delete_deleted h0, List.count_append]
    by_cases hq : q = p
    · subst hq
      rw [Function.update_self, hl, List.count_singleton_self]
      rfl
    · rw [Function.update_of_ne hq, List.count_singleton, if_neg (by simpa using Ne.symm hq)]
      rfl
  · refine ⟨[.dangling p], ?_, fun h => absurd h (List.cons_ne_nil _ [])⟩
    unfold delete check
    rw [if_neg h0, if_neg h0, if_neg hl]
    rfl

/-! ## Freeing a list -/

/-- `while(tmp) { head = tmp->next; delete tmp; tmp = head; }` over the objects `xs`. -/
def freeAll (m : Mem α) (xs : List Ptr) : Mem α := xs.foldl (fun m p => (m.check p).delete p) m

theorem freeAll_cons (m : Mem α) (x : Ptr) (xs : List Ptr) :
    m.freeAll (x :: xs) = ((m.check x).delete x).freeAll xs := rfl

theorem freeAll_append (m : Mem α) (xs ys : List Ptr) :
    m.freeAll (xs ++ ys) = (m.freeAll xs).freeAll ys := List.foldl_append

@[simp] theorem freeAll_cell (m : Mem α) (xs : List Ptr) : (m.freeAll xs).cell = m.cell := by
  induction xs generalizing m with
  | nil => rfl
  | cons x xs ih => rw [freeAll_cons, ih, delete_cell, check_cell]

theorem freeAll_conserves (m : Mem α) (xs : List Ptr) : m.Conserves (m.freeAll xs) := by
  induction xs generalizing m with
  | nil => exact .refl m
  | cons x xs ih => exact ((check_conserves m x).trans (delete_conserves _ x)).trans (ih _)

/-- Distinct objects are freed without a fault, and no others. -/
theorem freeAll_spec {xs : List Ptr} (hv : ∀ x ∈ xs, m.Valid x) (hn : xs.Nodup) :
    (m.freeAll xs).faults = m.faults ∧
      ∀ p, (m.freeAll xs).live p = true ↔ m.live p = true ∧ p ∉ xs := by
  induction xs generalizing m with
  | nil => exact ⟨rfl, fun p => by simp [freeAll]⟩
  | cons x xs ih =>
    obtain ⟨hx, hn⟩ := List.nodup_cons.mp hn
    have hvx := hv x List.mem_cons_self
    have hv' : ∀ y ∈ xs, (m.delete x).Valid y := fun y hy =>
      (delete_valid hvx.1).mpr ⟨hv y (List.mem_cons_of_mem x hy), fun h => hx (h ▸ hy)⟩
    obtain ⟨hf, hl⟩ := ih hv' hn
    rw [freeAll_cons, check_of_valid hvx]
    refine ⟨hf.trans (delete_faults hvx), fun p => ?_⟩
    rw [hl, delete_live hvx.1]
    by_cases hp : p = x
    · simp [hp]
    · simp [hp]

end SocketTest.Lib.Mem
