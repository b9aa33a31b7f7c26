import Mathlib.Logic.Function.Basic
import Mathlib.Tactic

/-!
# Objects behind pointers

A `Mem α` holds the objects of one class. A pointer is a number, `0` is the null pointer. `create`
and `delete` are the program's `new` and `delete`; reading or writing a field through a pointer
goes through `check`, which records a fault when the pointer is null or its object has been
deleted. A fault does not stop the run: the cell behind the pointer is read or written as the
machine would, and the fault stays in `faults` for the safety theorems. `deleted` lists the
arguments of `delete` in order.
-/

namespace SocketTest.Lib

/-- An address; `0` is null. -/
abbrev Ptr := ℕ

/-- An access the language leaves undefined. -/
inductive Fault
  /-- through the null pointer -/
  | null
  /-- through a pointer to a deleted object -/
  | dangling (p : Ptr)
  /-- at an index outside an array -/
  | outOfBounds (i : ℤ)
  deriving DecidableEq, Repr

structure Mem (α : Type) where
  cell : Ptr → α
  live : Ptr → Bool
  deleted : List Ptr
  faults : List Fault

namespace Mem

variable {α : Type}

/-- `p` points to an object. -/
def Valid (m : Mem α) (p : Ptr) : Prop := p ≠ 0 ∧ m.live p = true

instance decidableValid (m : Mem α) (p : Ptr) : Decidable (m.Valid p) := inferInstanceAs (Decidable (_ ∧ _))

/-- No objects, and `a` in every cell. -/
def blank (a : α) : Mem α := ⟨fun _ => a, fun _ => false, [], []⟩

def fault (m : Mem α) (f : Fault) : Mem α := { m with faults := m.faults ++ [f] }

/-- An access to the object behind `p`. -/
def check (m : Mem α) (p : Ptr) : Mem α :=
  if p = 0 then m.fault .null else if m.live p then m else m.fault (.dangling p)

/-- Write to the object behind `p`. -/
def modify (m : Mem α) (p : Ptr) (f : α → α) : Mem α :=
  { m.check p with cell := Function.update m.cell p (f (m.cell p)) }

/-- The object `a` allocated at `p`. -/
def create (m : Mem α) (p : Ptr) (a : α) : Mem α :=
  { m with cell := Function.update m.cell p a, live := Function.update m.live p true }

/-- `delete p`; nothing happens when `p` is null. -/
def delete (m : Mem α) (p : Ptr) : Mem α :=
  if p = 0 then m
  else { m.check p with live := Function.update m.live p false, deleted := m.deleted ++ [p] }

@[simp] theorem check_cell (m : Mem α) (p : Ptr) : (m.check p).cell = m.cell := by
  unfold check; split_ifs <;> rfl

@[simp] theorem check_live (m : Mem α) (p : Ptr) : (m.check p).live = m.live := by
  unfold check; split_ifs <;> rfl

@[simp] theorem check_deleted (m : Mem α) (p : Ptr) : (m.check p).deleted = m.deleted := by
  unfold check; split_ifs <;> rfl

theorem check_of_valid {m : Mem α} {p : Ptr} (h : m.Valid p) : m.check p = m := by
  unfold check; rw [if_neg h.1, if_pos h.2]

@[simp] theorem modify_cell (m : Mem α) (p : Ptr) (f : α → α) :
    (m.modify p f).cell = Function.update m.cell p (f (m.cell p)) := rfl

@[simp] theorem modify_live (m : Mem α) (p : Ptr) (f : α → α) :
    (m.modify p f).live = m.live := check_live m p

@[simp] theorem modify_deleted (m : Mem α) (p : Ptr) (f : α → α) :
    (m.modify p f).deleted = m.deleted := check_deleted m p

theorem modify_faults {m : Mem α} {p : Ptr} (h : m.Valid p) (f : α → α) :
    (m.modify p f).faults = m.faults := by
  show (m.check p).faults = m.faults
  rw [check_of_valid h]

theorem modify_eq_self {m : Mem α} {p : Ptr} (h : m.Valid p) {f : α → α}
    (hf : f (m.cell p) = m.cell p) : m.modify p f = m := by
  unfold modify
  rw [check_of_valid h, hf, Function.update_eq_self]

/-- A field `f` read everywhere after a write through `p`. -/
theorem field_modify {β : Type*} (m : Mem α) (p : Ptr) (f : α → β) (g : α → α) :
    (fun x => f ((m.modify p g).cell x)) =
      Function.update (fun x => f (m.cell x)) p (f (g (m.cell p))) := by
  funext x
  by_cases hx : x = p
  · rw [hx, Function.update_self, modify_cell, Function.update_self]
  · rw [Function.update_of_ne hx, modify_cell, Function.update_of_ne hx]

/-- A field that the write leaves as it is. -/
theorem field_modify_of_eq {β : Type*} (m : Mem α) (p : Ptr) (f : α → β) (g : α → α)
    (h : f (g (m.cell p)) = f (m.cell p)) :
    (fun x => f ((m.modify p g).cell x)) = fun x => f (m.cell x) := by
  rw [field_modify, h]
  exact Function.update_eq_self p _

@[simp] theorem create_cell (m : Mem α) (p : Ptr) (a : α) :
    (m.create p a).cell = Function.update m.cell p a := rfl

@[simp] theorem create_live (m : Mem α) (p : Ptr) (a : α) :
    (m.create p a).live = Function.update m.live p true := rfl

@[simp] theorem delete_cell (m : Mem α) (p : Ptr) : (m.delete p).cell = m.cell := by
  unfold delete; split_ifs <;> simp

theorem delete_live {m : Mem α} {p : Ptr} (h : p ≠ 0) :
    (m.delete p).live = Function.update m.live p false := by
  unfold delete; rw [if_neg h]

theorem delete_deleted {m : Mem α} {p : Ptr} (h : p ≠ 0) :
    (m.delete p).deleted = m.deleted ++ [p] := by
  unfold delete; rw [if_neg h]

theorem delete_faults {m : Mem α} {p : Ptr} (h : m.Valid p) : (m.delete p).faults = m.faults := by
  unfold delete
  rw [if_neg h.1]
  show (m.check p).faults = m.faults
  rw [check_of_valid h]

theorem delete_valid {m : Mem α} {p q : Ptr} (h : p ≠ 0) :
    (m.delete p).Valid q ↔ m.Valid q ∧ q ≠ p := by
  unfold Valid
  rw [delete_live h]
  by_cases hq : q = p
  · simp [hq]
  · simp [hq]

/-- Writes through one pointer commute with the deletion of another object. -/
theorem modify_delete {m : Mem α} {p q : Ptr} (hp : m.Valid p) (hq : m.Valid q) (hne : q ≠ p)
    (f : α → α) : (m.delete p).modify q f = (m.modify q f).delete p := by
  have hq' : (m.delete p).Valid q := (delete_valid hp.1).mpr ⟨hq, hne⟩
  have hp' : (m.modify q f).Valid p := ⟨hp.1, by rw [modify_live]; exact hp.2⟩
  unfold modify
  rw [check_of_valid hq', check_of_valid hq]
  have hd : ∀ {n : Mem α}, n.Valid p → n.delete p =
      { n with live := Function.update n.live p false, deleted := n.deleted ++ [p] } := by
    intro n hn
    unfold delete
    rw [if_neg hn.1, check_of_valid hn]
  rw [hd hp, hd]
  exact hp

/-! ## Array bounds -/

/-- No access so far was at an index outside an array. -/
def InBounds (m : Mem α) : Prop := ∀ i, .outOfBounds i ∉ m.faults

/-- `m'` has the faults of `m` and maybe more; where `P` holds, none of those is an index. -/
def Records (m : Mem α) (P : Prop) (m' : Mem α) : Prop :=
  ∃ fs, m'.faults = m.faults ++ fs ∧ (P → ∀ i, .outOfBounds i ∉ fs)

namespace Records

variable {m m' m'' : Mem α} {P Q : Prop}

theorem of_eq (h : m'.faults = m.faults) : m.Records P m' :=
  ⟨[], by rw [h, List.append_nil], fun _ _ => List.not_mem_nil⟩

theorem mono (h : m.Records Q m') (hPQ : P → Q) : m.Records P m' := by
  obtain ⟨fs, hfs, hin⟩ := h
  exact ⟨fs, hfs, fun hP => hin (hPQ hP)⟩

theorem trans (h : m.Records P m') (h' : m'.Records P m'') : m.Records P m'' := by
  obtain ⟨fs, hfs, hin⟩ := h
  obtain ⟨gs, hgs, hin'⟩ := h'
  refine ⟨fs ++ gs, by rw [hgs, hfs, List.append_assoc], fun hP i hi => ?_⟩
  rcases List.mem_append.mp hi with hi | hi
  · exact hin hP i hi
  · exact hin' hP i hi

/-- A fault is never taken back. -/
theorem inBounds_of (h : m.Records P m') (hm : m'.InBounds) : m.InBounds := by
  obtain ⟨fs, hfs, -⟩ := h
  intro i hi
  exact hm i (hfs ▸ List.mem_append_left _ hi)

theorem inBounds (h : m.Records P m') (hP : P) (hm : m.InBounds) : m'.InBounds := by
  obtain ⟨fs, hfs, hin⟩ := h
  intro i hi
  rw [hfs] at hi
  rcases List.mem_append.mp hi with hi | hi
  · exact hm i hi
  · exact hin hP i hi

end Records

theorem check_records (m : Mem α) (p : Ptr) (P : Prop) : m.Records P (m.check p) := by
  unfold check
  split_ifs
  · exact ⟨[.null], rfl, fun _ i hi => by simp at hi⟩
  · exact .of_eq rfl
  · exact ⟨[.dangling p], rfl, fun _ i hi => by simp at hi⟩

theorem modify_records (m : Mem α) (p : Ptr) (f : α → α) (P : Prop) : m.Records P (m.modify p f) :=
  check_records m p P

theorem delete_records (m : Mem α) (p : Ptr) (P : Prop) : m.Records P (m.delete p) := by
  unfold delete
  split_ifs
  · exact .of_eq rfl
  · exact check_records m p P

end Mem

end SocketTest.Lib
