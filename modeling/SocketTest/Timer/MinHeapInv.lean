import SocketTest.Timer.MinHeap

/-!
# The representation of a `time_heap`

`Rep h` is the invariant of a heap between operations: sizes, live and distinct timers, exact back
indices and heap order. Inside an operation the array has a hole and a timer waiting for it:
`Holed h tmp hole` is the same without the order. A step of either loop moves one timer into the
hole (`Holed.move`), so the loops of `percolate_down` and `add_timer` compute the library's
`siftDown` and `siftUp` on the array and keep every back index exact.

`Frame h h'` says what no loop touches: sizes, the store of objects, the faults, and each timer's
`expire`, `cb_func` and `user_data`.
-/

namespace SocketTest.Timer

open SocketTest.Lib

/-- What a timer carries apart from its position. -/
def HeapTimer.data (t : HeapTimer) : ℤ × Call := (t.expire, t.call)

theorem HeapTimer.index_eq_self {t : HeapTimer} {i : ℕ} (h : t.index = i) :
    { t with index := i } = t := by
  subst h; rfl

namespace TimeHeap

/-! ## Frames -/

/-- `h'` has the sizes, objects and faults of `h`, and every timer its data. -/
structure Frame (h h' : TimeHeap) : Prop where
  capacity : h'.capacity = h.capacity
  curSize : h'.curSize = h.curSize
  live : h'.mem.live = h.mem.live
  deleted : h'.mem.deleted = h.mem.deleted
  faults : h'.mem.faults = h.mem.faults
  data : ∀ p, (h'.mem.cell p).data = (h.mem.cell p).data

theorem Frame.refl (h : TimeHeap) : Frame h h := ⟨rfl, rfl, rfl, rfl, rfl, fun _ => rfl⟩

theorem Frame.trans {h h' h'' : TimeHeap} (a : Frame h h') (b : Frame h' h'') : Frame h h'' where
  capacity := b.capacity.trans a.capacity
  curSize := b.curSize.trans a.curSize
  live := b.live.trans a.live
  deleted := b.deleted.trans a.deleted
  faults := b.faults.trans a.faults
  data p := (b.data p).trans (a.data p)

theorem Frame.expire {h h' : TimeHeap} (a : Frame h h') : h'.expire = h.expire :=
  funext fun p => congrArg Prod.fst (a.data p)

theorem Frame.valid {h h' : TimeHeap} (a : Frame h h') {p : Ptr} :
    h'.mem.Valid p ↔ h.mem.Valid p := by unfold Mem.Valid; rw [a.live]

theorem place_data (h : TimeHeap) (i : ℕ) (p q : Ptr) :
    ((h.place i p).mem.cell q).data = (h.mem.cell q).data := by
  rw [place_cell]
  by_cases hq : q = p
  · rw [hq, Function.update_self]; rfl
  · rw [Function.update_of_ne hq]

theorem place_expire (h : TimeHeap) (i : ℕ) (p : Ptr) : (h.place i p).expire = h.expire :=
  funext fun q => congrArg Prod.fst (place_data h i p q)

theorem place_frame {h : TimeHeap} {i : ℕ} {p : Ptr} (hi : i < h.capacity)
    (hp : h.mem.Valid p) : Frame h (h.place i p) where
  capacity := place_capacity h i p
  curSize := place_curSize h i p
  live := place_live h i p
  deleted := place_deleted h i p
  faults := place_faults hi hp
  data := place_data h i p

/-! ## A heap with a hole -/

/-- The first `cur_size` positions, `tmp` counted at the hole, hold distinct live timers, and each
timer off the hole knows its position. -/
structure Holed (h : TimeHeap) (tmp : Ptr) (hole : ℕ) : Prop where
  hole_lt : hole < h.curSize
  size_le : h.curSize ≤ h.capacity
  valid : ∀ i < h.curSize, h.mem.Valid (Function.update h.array hole tmp i)
  inj : ∀ i < h.curSize, ∀ j < h.curSize,
    Function.update h.array hole tmp i = Function.update h.array hole tmp j → i = j
  index : ∀ i < h.curSize, i ≠ hole → (h.mem.cell (h.array i)).index = i

namespace Holed

variable {h : TimeHeap} {tmp : Ptr} {hole c : ℕ} (o : Holed h tmp hole)

include o

theorem valid_tmp : h.mem.Valid tmp := by
  have := o.valid hole o.hole_lt
  rwa [Function.update_self] at this

theorem valid_of_ne (hc : c < h.curSize) (hne : c ≠ hole) : h.mem.Valid (h.array c) := by
  have := o.valid c hc
  rwa [Function.update_of_ne hne] at this

theorem ne_of_ne {i : ℕ} (hi : i < h.curSize) (hc : c < h.curSize) (hih : i ≠ hole)
    (hch : c ≠ hole) (hic : i ≠ c) : h.array i ≠ h.array c := by
  intro he
  refine hic (o.inj i hi c hc ?_)
  rw [Function.update_of_ne hih, Function.update_of_ne hch, he]

/-- The timer at `c` moves into the hole; the hole is now at `c`. -/
theorem move (hc : c < h.curSize) (hne : c ≠ hole) :
    Holed (h.place hole (h.array c)) tmp c ∧ Frame h (h.place hole (h.array c)) := by
  have hfr := place_frame (o.hole_lt.trans_le o.size_le) (o.valid_of_ne hc hne)
  have hsw : ∀ i < h.curSize, ∃ j < h.curSize, (i = hole ↔ j = c) ∧ (i = c ↔ j = hole) ∧
      (i ≠ hole → i ≠ c → j = i) ∧
      Function.update (h.place hole (h.array c)).array c tmp i =
        Function.update h.array hole tmp j := by
    intro i hi
    rw [place_array]
    by_cases hic : i = c
    · refine ⟨hole, o.hole_lt, by omega, by omega, by omega, ?_⟩
      rw [hic, Function.update_self, Function.update_self]
    · rw [Function.update_of_ne hic]
      by_cases hih : i = hole
      · refine ⟨c, hc, by omega, by omega, by omega, ?_⟩
        rw [hih, Function.update_self, Function.update_of_ne hne]
      · refine ⟨i, hi, by omega, by omega, by omega, ?_⟩
        rw [Function.update_of_ne hih, Function.update_of_ne hih]
  refine ⟨⟨by rwa [place_curSize], ?_, ?_, ?_, ?_⟩, hfr⟩
  · rw [place_curSize, place_capacity]; exact o.size_le
  · intro i hi
    rw [place_curSize] at hi
    obtain ⟨j, hj, -, -, -, he⟩ := hsw i hi
    rw [he, hfr.valid]; exact o.valid j hj
  · intro i hi k hk he
    rw [place_curSize] at hi hk
    obtain ⟨j, hj, h1, h2, h3, hej⟩ := hsw i hi
    obtain ⟨l, hl, g1, g2, g3, hel⟩ := hsw k hk
    have := o.inj j hj l hl (hej ▸ hel ▸ he)
    omega
  · intro i hi hic
    rw [place_curSize] at hi
    rw [place_array, place_cell]
    by_cases hih : i = hole
    · rw [hih, Function.update_self, Function.update_self]
    · rw [Function.update_of_ne hih, Function.update_of_ne (o.ne_of_ne hi hc hih hne hic)]
      exact o.index i hi hih

end Holed

/-- Every position in use holds a live timer of its own, which knows the position. -/
structure Indexed (h : TimeHeap) : Prop where
  size_le : h.curSize ≤ h.capacity
  valid : ∀ i < h.curSize, h.mem.Valid (h.array i)
  inj : ∀ i < h.curSize, ∀ j < h.curSize, h.array i = h.array j → i = j
  index : ∀ i < h.curSize, (h.mem.cell (h.array i)).index = i

theorem Indexed.holed {h : TimeHeap} (o : Indexed h) {hole : ℕ} (hh : hole < h.curSize) :
    Holed h (h.array hole) hole := by
  have he : Function.update h.array hole (h.array hole) = h.array := Function.update_eq_self _ _
  constructor
  · exact hh
  · exact o.size_le
  · rw [he]; exact o.valid
  · rw [he]; exact o.inj
  · exact fun i hi _ => o.index i hi

theorem Holed.finish {h : TimeHeap} {tmp : Ptr} {hole : ℕ} (o : Holed h tmp hole) :
    Indexed (h.place hole tmp) ∧ Frame h (h.place hole tmp) := by
  have hfr := place_frame (o.hole_lt.trans_le o.size_le) o.valid_tmp
  refine ⟨⟨?_, ?_, ?_, ?_⟩, hfr⟩
  · rw [place_curSize, place_capacity]; exact o.size_le
  · intro i hi
    rw [place_curSize] at hi
    rw [hfr.valid]; exact o.valid i hi
  · intro i hi j hj
    rw [place_curSize] at hi hj
    exact o.inj i hi j hj
  · intro i hi
    rw [place_curSize] at hi
    rw [place_array, place_cell]
    by_cases hih : i = hole
    · rw [hih, Function.update_self, Function.update_self]
    · have hne : h.array i ≠ tmp := by
        intro he
        refine hih (o.inj i hi hole o.hole_lt ?_)
        rw [Function.update_of_ne hih, Function.update_self, he]
      rw [Function.update_of_ne hih, Function.update_of_ne hne]
      exact o.index i hi hih

/-! ## The loops -/

theorem lesserChild_eq (h : TimeHeap) (hole : ℕ) :
    h.lesserChild hole = Lib.lesserChild h.expire h.curSize h.array hole := rfl

theorem lesserChild_lt {h : TimeHeap} {hole : ℕ} (hlt : hole * 2 + 1 < h.curSize) :
    h.lesserChild hole < h.curSize := Lib.lesserChild_lt h.expire h.curSize hlt

/-- On a heap with a hole a round of `percolate_down` reads live timers only. -/
theorem Holed.compareAt_eq {h : TimeHeap} {tmp : Ptr} {hole : ℕ} (o : Holed h tmp hole)
    (hlt : hole * 2 + 1 < h.curSize) : h.compareAt tmp hole = h := by
  have hv : ∀ i, i < h.curSize → i ≠ hole → h.visit i = h := fun i hi hne =>
    visit_of_valid (hi.trans_le o.size_le) (o.valid_of_ne hi hne)
  have hchild := lesserChild_lt hlt
  have hgt := lt_lesserChild h hole
  unfold compareAt
  split_ifs with h2
  · rw [hv _ h2 (by omega), hv _ hlt (by omega), hv _ hchild (by omega), deref_of_valid o.valid_tmp]
  · rw [hv _ hchild (by omega), deref_of_valid o.valid_tmp]

/-- The loop moves timers as the library's `siftDown` does, whatever the array holds, and no timer's
`expire` changes. -/
theorem percolateLoop_array (h : TimeHeap) (tmp : Ptr) (hole : ℕ) :
    Function.update (percolateLoop h tmp hole).1.array (percolateLoop h tmp hole).2 tmp =
        siftDown h.expire h.curSize h.array tmp hole ∧
      (percolateLoop h tmp hole).1.expire = h.expire := by
  have hread : ∀ (h : TimeHeap) (hole : ℕ), (h.compareAt tmp hole).expire = h.expire := by
    intro h hole
    unfold expire
    rw [compareAt_cell]
  induction h, hole using percolateLoop.induct tmp with
  | case1 h hole hlt hkey ih =>
    have hplace : ((h.compareAt tmp hole).place hole (h.array (h.lesserChild hole))).expire =
        h.expire := (place_expire _ _ _).trans (hread h hole)
    obtain ⟨ha, he⟩ := ih
    rw [percolateLoop, if_pos hlt, if_pos hkey, ha, he, hplace, place_curSize, compareAt_curSize,
      place_array, compareAt_array]
    refine ⟨?_, rfl⟩
    conv_rhs => rw [siftDown, if_pos hlt, ← lesserChild_eq, if_pos hkey]
  | case2 h hole hlt hkey =>
    rw [percolateLoop, if_pos hlt, if_neg hkey, compareAt_array]
    refine ⟨?_, hread h hole⟩
    rw [siftDown, if_pos hlt, ← lesserChild_eq, if_neg hkey]
  | case3 h hole hlt =>
    rw [percolateLoop, if_neg hlt]
    refine ⟨?_, rfl⟩
    rw [siftDown, if_neg hlt]

theorem percolateDown_array (h : TimeHeap) (hole : ℕ) :
    (h.percolateDown hole).array = siftDown h.expire h.curSize h.array (h.array hole) hole := by
  obtain ⟨ha, -⟩ := percolateLoop_array (h.slot hole) (h.array hole) hole
  unfold expire at ha
  rw [slot_cell, slot_curSize, slot_array] at ha
  exact ha

theorem percolateDown_expire (h : TimeHeap) (hole : ℕ) : (h.percolateDown hole).expire = h.expire := by
  obtain ⟨-, he⟩ := percolateLoop_array (h.slot hole) (h.array hole) hole
  refine (place_expire _ _ _).trans (he.trans ?_)
  unfold expire
  rw [slot_cell]

theorem percolateLoop_spec {h : TimeHeap} {tmp : Ptr} {hole : ℕ} (o : Holed h tmp hole) :
    Holed (percolateLoop h tmp hole).1 tmp (percolateLoop h tmp hole).2 ∧
      Frame h (percolateLoop h tmp hole).1 := by
  induction h, hole using percolateLoop.induct tmp with
  | case1 h hole hlt hkey ih =>
    have hchild := lesserChild_lt hlt
    obtain ⟨o', hfr⟩ := o.move hchild (lt_lesserChild h hole).ne'
    rw [o.compareAt_eq hlt] at ih
    obtain ⟨ho, hf⟩ := ih o'
    rw [percolateLoop, if_pos hlt, if_pos hkey, o.compareAt_eq hlt]
    exact ⟨ho, hfr.trans hf⟩
  | case2 h hole hlt hkey =>
    rw [percolateLoop, if_pos hlt, if_neg hkey, o.compareAt_eq hlt]
    exact ⟨o, Frame.refl h⟩
  | case3 h hole hlt =>
    rw [percolateLoop, if_neg hlt]
    exact ⟨o, Frame.refl h⟩

/-- `percolate_down` keeps every back index exact and touches live timers only. -/
theorem percolateDown_spec {h : TimeHeap} (o : Indexed h) {hole : ℕ} (hh : hole < h.curSize) :
    Indexed (h.percolateDown hole) ∧ Frame h (h.percolateDown hole) := by
  obtain ⟨ho, hf⟩ := percolateLoop_spec (o.holed hh)
  obtain ⟨hi, hf'⟩ := ho.finish
  unfold percolateDown
  rw [slot_of_lt (hh.trans_le o.size_le)]
  exact ⟨hi, hf.trans hf'⟩

theorem addLoop_spec {h : TimeHeap} {timer : Ptr} {hole : ℕ} (o : Holed h timer hole) :
    Holed (addLoop h timer hole).1 timer (addLoop h timer hole).2 ∧
      Frame h (addLoop h timer hole).1 ∧
      Function.update (addLoop h timer hole).1.array (addLoop h timer hole).2 timer =
        siftUp h.expire h.array timer hole := by
  have hread : ∀ {h : TimeHeap} {hole : ℕ}, Holed h timer hole → 0 < hole →
      (h.visit ((hole - 1) / 2)).deref timer = h := by
    intro h hole o h0
    have hp := parent_lt h0
    have hlt := o.hole_lt
    rw [visit_of_valid (by have := o.size_le; omega) (o.valid_of_ne (by omega) hp.ne),
      deref_of_valid o.valid_tmp]
  induction h, hole using addLoop.induct timer with
  | case1 h hole h0 hkey =>
    rw [addLoop, if_pos h0, if_pos hkey, hread o h0]
    refine ⟨o, Frame.refl h, ?_⟩
    rw [siftUp, if_pos h0, if_pos hkey]
  | case2 h hole h0 hkey ih =>
    have hp := parent_lt h0
    obtain ⟨o', hfr⟩ := o.move (hp.trans o.hole_lt) hp.ne
    rw [hread o h0] at ih
    obtain ⟨ho, hf, he⟩ := ih o'
    rw [addLoop, if_pos h0, if_neg hkey, hread o h0]
    refine ⟨ho, hfr.trans hf, ?_⟩
    rw [he, hfr.expire, place_array]
    conv_rhs => rw [siftUp, if_pos h0, if_neg hkey]
  | case3 h hole h0 =>
    rw [addLoop, if_neg h0]
    refine ⟨o, Frame.refl h, ?_⟩
    rw [siftUp, if_neg h0]

/-! ## The representation invariant -/

/-- The invariant of a heap between operations. -/
structure Rep (h : TimeHeap) : Prop where
  cap_pos : 0 < h.capacity
  indexed : Indexed h
  ordered : Ordered h.expire h.curSize h.array

theorem Rep.of_empty {h : TimeHeap} (hcap : 0 < h.capacity) (h0 : h.curSize = 0) : Rep h := by
  have hno : ∀ i, ¬ i < h.curSize := fun i => by rw [h0]; exact Nat.not_lt_zero i
  refine ⟨hcap, ⟨by rw [h0]; exact Nat.zero_le _, ?_, ?_, ?_⟩, ?_⟩
  · exact fun i hi => absurd hi (hno i)
  · exact fun i hi => absurd hi (hno i)
  · exact fun i hi => absurd hi (hno i)
  · exact fun i _ hi => absurd hi (hno i)

/-- The timers in the heap, by position. -/
def slots (h : TimeHeap) : List Ptr := (List.range h.curSize).map h.array

theorem slots_length (h : TimeHeap) : h.slots.length = h.curSize := by simp [slots]

theorem slots_eq_nil (h : TimeHeap) : h.slots = [] ↔ h.curSize = 0 := by
  rw [← List.length_eq_zero_iff, slots_length]

theorem mem_slots {h : TimeHeap} {p : Ptr} : p ∈ h.slots ↔ ∃ i < h.curSize, h.array i = p := by
  simp [slots]

theorem Indexed.nodup {h : TimeHeap} (o : Indexed h) : h.slots.Nodup :=
  List.Nodup.map_on (fun i hi j hj he =>
    o.inj i (List.mem_range.mp hi) j (List.mem_range.mp hj) he) List.nodup_range

theorem Indexed.valid_of_mem {h : TimeHeap} (o : Indexed h) {p : Ptr} (hp : p ∈ h.slots) :
    h.mem.Valid p := by
  obtain ⟨i, hi, rfl⟩ := mem_slots.mp hp
  exact o.valid i hi

/-- The root expires first. -/
theorem Rep.root_le {h : TimeHeap} (r : Rep h) {p : Ptr} (hp : p ∈ h.slots) :
    h.expire (h.array 0) ≤ h.expire p := by
  obtain ⟨i, hi, rfl⟩ := mem_slots.mp hp
  exact r.ordered.root_le i hi

/-- `percolate_down` permutes the timers below its hole. -/
theorem percolateDown_rearranges {h : TimeHeap} {hole : ℕ} (hh : hole < h.curSize) :
    Rearranges {i | i < h.curSize ∧ InSubtree hole i} h.array (h.percolateDown hole).array := by
  have hr := siftDown_rearranges h.expire h.curSize h.array (h.array hole) hh
  rwa [Function.update_eq_self, ← percolateDown_array] at hr

theorem percolateDown_slots {h : TimeHeap} {hole : ℕ} (hh : hole < h.curSize) :
    (h.percolateDown hole).slots.Perm h.slots := by
  unfold slots
  rw [percolateDown_curSize]
  exact (percolateDown_rearranges hh).perm_range fun i hi => hi.1

theorem percolateDown_ordered {h : TimeHeap} {hole m : ℕ}
    (d : DownOrder h.expire h.curSize m h.array (h.array hole) hole) :
    OrderedFrom (h.percolateDown hole).expire (h.percolateDown hole).curSize m
      (h.percolateDown hole).array := by
  rw [percolateDown_expire, percolateDown_curSize, percolateDown_array]
  exact siftDown_ordered d

end TimeHeap

end SocketTest.Timer
