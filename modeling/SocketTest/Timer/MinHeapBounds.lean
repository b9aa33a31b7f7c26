import SocketTest.Timer.MinHeapRuns

/-!
# The array accesses of a `time_heap`

Every access to `array` is at a position below `cur_size`, and `cur_size` does not pass `capacity`:
what each operation records in the faults is said by `Mem.Records`, whatever the array holds. No
timer need be live or distinct from the others, and the constructors may be given any capacity.

The server's refresh percolates from the index a timer has stored. `Homed` keeps that index in
range: it is `0` or a position that holds the timer.

An array of no slots is never grown, since `2*0 = 0`; `add_timer` and `tick` then access `array[0]`.
-/

namespace SocketTest.Timer

open SocketTest.Lib

namespace TimeHeap

/-! ## What each operation records -/

section Records

variable (h : TimeHeap)

theorem slot_records (i : ℕ) : h.mem.Records (i < h.capacity) (h.slot i).mem := by
  unfold slot
  split_ifs with hi
  · exact .of_eq rfl
  · exact ⟨[.outOfBounds i], rfl, fun hlt => absurd hlt hi⟩

theorem visit_records (i : ℕ) : h.mem.Records (i < h.capacity) (h.visit i).mem :=
  (slot_records h i).trans (Mem.check_records _ _ _)

theorem place_records (i : ℕ) (p : Ptr) :
    h.mem.Records (i < h.capacity) (h.place i p).mem :=
  (slot_records h i).trans (Mem.modify_records _ _ _ _)

theorem compareAt_records (tmp : Ptr) {hole : ℕ} (hlt : hole * 2 + 1 < h.curSize) :
    h.mem.Records (h.curSize ≤ h.capacity) (h.compareAt tmp hole).mem := by
  have hchild := lesserChild_lt hlt
  unfold compareAt
  refine Mem.Records.trans ?_ (Mem.check_records _ _ _)
  split_ifs with h2
  · refine (((visit_records h (hole * 2 + 2)).mono ?_).trans
      ((visit_records _ (hole * 2 + 1)).mono ?_)).trans ((visit_records _ _).mono ?_)
    · omega
    · rw [visit_capacity]; omega
    · rw [visit_capacity, visit_capacity]; omega
  · exact (visit_records h _).mono (by omega)

end Records

/-- The loop of `percolate_down` moves its hole to positions in use only. -/
theorem percolateLoop_records (h : TimeHeap) (tmp : Ptr) (hole : ℕ) :
    h.mem.Records (hole < h.capacity ∧ h.curSize ≤ h.capacity) (percolateLoop h tmp hole).1.mem ∧
      (percolateLoop h tmp hole).1.capacity = h.capacity ∧
      (hole < h.capacity → h.curSize ≤ h.capacity → (percolateLoop h tmp hole).2 < h.capacity) := by
  induction h, hole using percolateLoop.induct tmp with
  | case1 h hole hlt hkey ih =>
    have hchild := lesserChild_lt hlt
    rw [percolateLoop, if_pos hlt, if_pos hkey]
    obtain ⟨hr, hcap, hstop⟩ := ih
    rw [place_curSize, compareAt_curSize, place_capacity, compareAt_capacity] at hr hstop
    rw [place_capacity, compareAt_capacity] at hcap
    refine ⟨(((compareAt_records h tmp hlt).mono And.right).trans
      ((place_records _ _ _).mono ?_)).trans (hr.mono ?_), hcap, ?_⟩
    · rw [compareAt_capacity]
      exact And.left
    · omega
    · intro _ hle
      exact hstop (by omega) hle
  | case2 h hole hlt hkey =>
    rw [percolateLoop, if_pos hlt, if_neg hkey]
    exact ⟨(compareAt_records h tmp hlt).mono And.right, compareAt_capacity h tmp hole,
      fun hh _ => hh⟩
  | case3 h hole hlt =>
    rw [percolateLoop, if_neg hlt]
    exact ⟨.of_eq rfl, rfl, fun hh _ => hh⟩

theorem percolateDown_records (h : TimeHeap) (hole : ℕ) :
    h.mem.Records (hole < h.capacity ∧ h.curSize ≤ h.capacity) (h.percolateDown hole).mem ∧
      (h.percolateDown hole).capacity = h.capacity := by
  obtain ⟨hr, hcap, hstop⟩ := percolateLoop_records (h.slot hole) (h.array hole) hole
  rw [slot_curSize, slot_capacity] at hr hstop
  rw [slot_capacity] at hcap
  unfold percolateDown
  refine ⟨(((slot_records h hole).mono And.left).trans hr).trans
    ((place_records _ _ _).mono fun hp => ?_), ?_⟩
  · rw [hcap]
    exact hstop hp.1 hp.2
  · rw [place_capacity, hcap]

/-- The loop of `add_timer` goes from its hole towards the root. -/
theorem addLoop_records (h : TimeHeap) (timer : Ptr) (hole : ℕ) :
    h.mem.Records (hole < h.capacity) (addLoop h timer hole).1.mem ∧
      (addLoop h timer hole).1.capacity = h.capacity ∧
      (addLoop h timer hole).1.curSize = h.curSize ∧ (addLoop h timer hole).2 ≤ hole := by
  have hread : ∀ (h : TimeHeap) (hole : ℕ), 0 < hole → h.mem.Records (hole < h.capacity)
      ((h.visit ((hole - 1) / 2)).deref timer).mem := by
    intro h hole h0
    have hp := parent_lt h0
    exact ((visit_records h _).mono (by omega)).trans (Mem.check_records _ _ _)
  induction h, hole using addLoop.induct timer with
  | case1 h hole h0 hkey =>
    rw [addLoop, if_pos h0, if_pos hkey]
    exact ⟨hread h hole h0, visit_capacity h _, visit_curSize h _, le_rfl⟩
  | case2 h hole h0 hkey ih =>
    have hp := parent_lt h0
    obtain ⟨hr, hcap, hsize, hstop⟩ := ih
    have hc : (((h.visit ((hole - 1) / 2)).deref timer).place hole
        (h.array ((hole - 1) / 2))).capacity = h.capacity :=
      (place_capacity _ _ _).trans (visit_capacity h _)
    rw [addLoop, if_pos h0, if_neg hkey]
    rw [hc] at hr hcap
    rw [place_curSize, deref_curSize, visit_curSize] at hsize
    refine ⟨((hread h hole h0).trans ((place_records _ _ _).mono ?_)).trans (hr.mono ?_), hcap, hsize,
      by omega⟩
    · exact fun hlt => hlt.trans_eq (visit_capacity h _).symm
    · omega
  | case3 h hole h0 =>
    rw [addLoop, if_neg h0]
    exact ⟨.of_eq rfl, rfl, rfl, le_rfl⟩

/-- One round of the copying loop of `resize`. -/
def renumberAt (g : TimeHeap) (i : ℕ) : TimeHeap :=
  { g.slot i with mem := (g.slot i).mem.modify (g.array i) fun t => { t with index := i } }

/-- `k` rounds of the copying loop: each of the first `k` timers knows a position of its own. -/
theorem renumber_rounds (h : TimeHeap) (k : ℕ) :
    h.mem.Records (k ≤ h.capacity) ((List.range k).foldl renumberAt h).mem ∧
      ((List.range k).foldl renumberAt h).array = h.array ∧
      ((List.range k).foldl renumberAt h).capacity = h.capacity ∧
      ((List.range k).foldl renumberAt h).curSize = h.curSize ∧
      ∀ i < k, (((List.range k).foldl renumberAt h).mem.cell (h.array i)).index < k ∧
        h.array (((List.range k).foldl renumberAt h).mem.cell (h.array i)).index = h.array i := by
  induction k with
  | zero => exact ⟨.of_eq rfl, rfl, rfl, rfl, fun i hi => absurd hi (Nat.not_lt_zero i)⟩
  | succ k ih =>
    rw [List.range_succ, List.foldl_append, List.foldl_cons, List.foldl_nil]
    obtain ⟨hr, harr, hcap, hsize, hidx⟩ := ih
    set g := (List.range k).foldl renumberAt h
    have hcell : (renumberAt g k).mem.cell =
        Function.update g.mem.cell (h.array k) { g.mem.cell (h.array k) with index := k } := by
      unfold renumberAt
      rw [Mem.modify_cell, slot_cell, harr]
    refine ⟨(hr.mono (by omega)).trans
      (((slot_records g k).mono ?_).trans (Mem.modify_records _ _ _ _)),
      (slot_array g k).trans harr, (slot_capacity g k).trans hcap, (slot_curSize g k).trans hsize, ?_⟩
    · rw [hcap]; omega
    · intro i hi
      rw [hcell]
      by_cases hik : h.array i = h.array k
      · rw [hik, Function.update_self]
        exact ⟨Nat.lt_succ_self k, rfl⟩
      · have hlt : i < k := by
          rcases Nat.lt_succ_iff_lt_or_eq.mp hi with hlt | rfl
          · exact hlt
          · exact absurd rfl hik
        rw [Function.update_of_ne hik]
        exact ⟨(hidx i hlt).1.trans (Nat.lt_succ_self k), (hidx i hlt).2⟩

theorem resize_records (h : TimeHeap) :
    h.mem.Records (h.curSize ≤ h.capacity) h.resize.mem ∧ h.resize.curSize = h.curSize := by
  obtain ⟨hr, -, -, hsize, -⟩ := renumber_rounds h h.curSize
  exact ⟨hr, hsize⟩

/-- The heap in which `add_timer` looks for the timer's position, after `resize` if need be. -/
def grown (h : TimeHeap) : TimeHeap := if h.capacity ≤ h.curSize then h.resize else h

theorem grown_records (h : TimeHeap) :
    h.mem.Records (h.curSize ≤ h.capacity) h.grown.mem ∧ h.grown.curSize = h.curSize ∧
      (0 < h.grown.capacity ↔ 0 < h.capacity) ∧
      (h.curSize ≤ h.capacity → 0 < h.capacity → h.curSize < h.grown.capacity) := by
  unfold grown
  split_ifs with hfull
  · obtain ⟨hr, hsize⟩ := resize_records h
    have hcap : h.resize.capacity = 2 * h.capacity := rfl
    exact ⟨hr, hsize, by omega, by omega⟩
  · exact ⟨.of_eq rfl, rfl, Iff.rfl, by omega⟩

theorem addTimer_eq (h : TimeHeap) {t : Ptr} (ht : t ≠ 0) :
    h.addTimer t = (addLoop { h.grown with curSize := h.grown.curSize + 1 } t h.grown.curSize).1.place
      (addLoop { h.grown with curSize := h.grown.curSize + 1 } t h.grown.curSize).2 t := by
  unfold addTimer
  rw [if_neg ht]
  rfl

/-- `add_timer` stays in the array, and the size in the capacity, unless there are no slots. -/
theorem addTimer_records (h : TimeHeap) {t : Ptr} (ht : t ≠ 0) :
    h.mem.Records (h.curSize ≤ h.capacity ∧ 0 < h.capacity) (h.addTimer t).mem ∧
      (0 < (h.addTimer t).capacity ↔ 0 < h.capacity) ∧
      (h.curSize ≤ h.capacity → 0 < h.capacity → (h.addTimer t).curSize ≤ (h.addTimer t).capacity) := by
  obtain ⟨hg, hsize, hpos, hroom⟩ := grown_records h
  obtain ⟨hr, hcap, hsize', hstop⟩ :=
    addLoop_records { h.grown with curSize := h.grown.curSize + 1 } t h.grown.curSize
  rw [addTimer_eq h ht, place_capacity, place_curSize]
  refine ⟨(hg.mono And.left).trans ((hr.mono ?_).trans ((place_records _ _ _).mono ?_)), ?_, ?_⟩
  · rintro ⟨hle, hc⟩
    have := hroom hle hc
    exact hsize.trans_lt this
  · rintro ⟨hle, hc⟩
    have := hroom hle hc
    rw [hcap]
    exact hstop.trans_lt (hsize.trans_lt this)
  · rw [hcap]; exact hpos
  · intro hle hc
    have := hroom hle hc
    rw [hcap, hsize']
    show h.grown.curSize + 1 ≤ h.grown.capacity
    omega

theorem slot_outOfBounds {h : TimeHeap} {i : ℕ} (hi : h.capacity ≤ i) :
    ¬ (h.slot i).mem.InBounds := by
  intro hin
  unfold slot at hin
  rw [if_neg (not_lt.mpr hi)] at hin
  exact hin i (List.mem_append_right _ List.mem_cons_self)

/-- Doubling no slots gives none: the timer is written outside the array. -/
theorem addTimer_outOfBounds {h : TimeHeap} (h0 : h.capacity = 0) {t : Ptr} (ht : t ≠ 0) :
    ¬ (h.addTimer t).mem.InBounds := by
  obtain ⟨-, -, hpos, -⟩ := grown_records h
  obtain ⟨-, hcap, -⟩ :=
    addLoop_records { h.grown with curSize := h.grown.curSize + 1 } t h.grown.curSize
  have hc : (addLoop { h.grown with curSize := h.grown.curSize + 1 } t h.grown.curSize).1.capacity =
      0 := by
    rw [hcap]
    show h.grown.capacity = 0
    omega
  rw [addTimer_eq h ht]
  intro hin
  refine slot_outOfBounds ?_ ((Mem.modify_records _ _ _ True).inBounds_of hin)
  rw [hc]
  exact Nat.zero_le _

theorem delTimer_records (h : TimeHeap) (t : Ptr) (P : Prop) :
    h.mem.Records P (h.delTimer t).mem := by
  unfold delTimer
  split_ifs
  · exact .of_eq rfl
  · exact Mem.modify_records _ _ _ _

/-- The heap of `pop_timer` after `array[0] = array[--cur_size]; array[0]->index=0`. -/
def replaced (h : TimeHeap) : TimeHeap :=
  (({ h.slot 0 with mem := (h.slot 0).mem.delete (h.array 0), curSize := h.curSize - 1 } :
    TimeHeap).slot (h.curSize - 1)).place 0 (h.array (h.curSize - 1))

theorem popTimer_replaced {h : TimeHeap} (he : ¬ h.empty = true) (hp : h.array 0 ≠ 0) :
    h.popTimer = h.replaced.percolateDown 0 := by
  unfold popTimer
  rw [if_neg he, if_pos hp]
  rfl

theorem replaced_array (h : TimeHeap) :
    h.replaced.array = Function.update h.array 0 (h.array (h.curSize - 1)) := by
  unfold replaced
  rw [place_array, slot_array]
  exact congrArg (fun a => Function.update a 0 (h.array (h.curSize - 1))) (slot_array h 0)

theorem replaced_cell (h : TimeHeap) :
    h.replaced.mem.cell = Function.update h.mem.cell (h.array (h.curSize - 1))
      { h.mem.cell (h.array (h.curSize - 1)) with index := 0 } := by
  unfold replaced
  rw [place_cell, slot_cell, Mem.delete_cell, slot_cell]

theorem replaced_curSize (h : TimeHeap) : h.replaced.curSize = h.curSize - 1 := by
  unfold replaced
  rw [place_curSize, slot_curSize]

theorem replaced_capacity (h : TimeHeap) : h.replaced.capacity = h.capacity := by
  unfold replaced
  rw [place_capacity, slot_capacity]
  exact slot_capacity h 0

theorem replaced_records {h : TimeHeap} (hn : 0 < h.curSize) :
    h.mem.Records (h.curSize ≤ h.capacity) h.replaced.mem := by
  have hdel := ((slot_records h 0).mono (P := h.curSize ≤ h.capacity) (by omega)).trans
    (Mem.delete_records (h.slot 0).mem (h.array 0) _)
  have hcap := slot_capacity h 0
  unfold replaced
  refine hdel.trans (((slot_records _ _).mono ?_).trans ((place_records _ _ _).mono ?_))
  · show h.curSize ≤ h.capacity → h.curSize - 1 < (h.slot 0).capacity
    omega
  · rw [slot_capacity]
    show h.curSize ≤ h.capacity → 0 < (h.slot 0).capacity
    omega

/-- `pop_timer` reads the root and the last timer, and percolates among those left. -/
theorem popTimer_records (h : TimeHeap) :
    h.mem.Records (h.curSize ≤ h.capacity) h.popTimer.mem ∧ h.popTimer.capacity = h.capacity ∧
      h.popTimer.curSize ≤ h.curSize := by
  by_cases he : h.empty = true
  · rw [popTimer_empty he]
    exact ⟨.of_eq rfl, rfl, le_rfl⟩
  have hn := Rep.curSize_pos (h := h) (by simpa using he)
  by_cases hp : h.array 0 = 0
  · rw [popTimer_null he hp]
    exact ⟨(slot_records h 0).mono (by omega), slot_capacity h 0, (slot_curSize h 0).le⟩
  · obtain ⟨hr, hc⟩ := percolateDown_records h.replaced 0
    rw [replaced_capacity, replaced_curSize] at hr
    rw [popTimer_replaced he hp, percolateDown_curSize, replaced_curSize]
    exact ⟨(replaced_records hn).trans (hr.mono (by omega)), hc.trans (replaced_capacity h),
      Nat.sub_le _ _⟩

/-- `tick` reads `array[0]` before its loop and after every `pop_timer`. -/
theorem tickLoop_records (h : TimeHeap) (cur : ℤ) :
    h.mem.Records (h.curSize ≤ h.capacity ∧ 0 < h.capacity) (tickLoop h cur).1.mem ∧
      (tickLoop h cur).1.capacity = h.capacity ∧ (tickLoop h cur).1.curSize ≤ h.curSize := by
  induction h using tickLoop.induct cur with
  | case1 h he =>
    rw [tickLoop, if_pos he]
    exact ⟨.of_eq rfl, rfl, le_rfl⟩
  | case2 h he h0 =>
    rw [tickLoop, if_neg he, if_pos h0]
    exact ⟨.of_eq rfl, rfl, le_rfl⟩
  | case3 h he h0 hlt =>
    rw [tickLoop, if_neg he, if_neg h0, if_pos hlt]
    exact ⟨(visit_records h 0).mono And.right, visit_capacity h 0, (visit_curSize h 0).le⟩
  | case4 h he h0 hlt ih =>
    rw [tickLoop, if_neg he, if_neg h0, if_neg hlt]
    obtain ⟨hr, hcap, hsize⟩ := ih
    obtain ⟨hp, hpcap, hpsize⟩ := popTimer_records (h.visit 0)
    rw [visit_curSize, visit_capacity] at hp
    rw [visit_capacity] at hpcap
    rw [visit_curSize] at hpsize
    rw [slot_curSize, slot_capacity, hpcap] at hr
    rw [slot_capacity, hpcap] at hcap
    rw [slot_curSize] at hsize
    refine ⟨((((visit_records h 0).mono And.right).trans (hp.mono And.left)).trans
      ((slot_records _ 0).mono ?_)).trans (hr.mono ?_), hcap, hsize.trans hpsize⟩
    · rw [hpcap]
      exact And.right
    · exact fun hc => ⟨hpsize.trans hc.1, hc.2⟩

theorem tick_records (h : TimeHeap) (cur : ℤ) :
    h.mem.Records (h.curSize ≤ h.capacity ∧ 0 < h.capacity) (h.tick cur).1.mem ∧
      (h.tick cur).1.capacity = h.capacity ∧ (h.tick cur).1.curSize ≤ h.curSize := by
  obtain ⟨hr, hcap, hsize⟩ := tickLoop_records (h.slot 0) cur
  rw [slot_curSize, slot_capacity] at hr
  rw [slot_capacity] at hcap
  rw [slot_curSize] at hsize
  exact ⟨((slot_records h 0).mono And.right).trans hr, hcap, hsize⟩

/-- `tick` reads `array[0]` of an array of no slots. -/
theorem tick_outOfBounds {h : TimeHeap} (h0 : h.capacity = 0) (cur : ℤ) :
    ¬ (h.tick cur).1.mem.InBounds := by
  obtain ⟨hr, -⟩ := tickLoop_records (h.slot 0) cur
  exact fun hin => slot_outOfBounds h0.le (hr.inBounds_of hin)

theorem refresh_records (h : TimeHeap) (t : Ptr) (e : ℤ) :
    h.mem.Records ((h.mem.cell t).index < h.capacity ∧ h.curSize ≤ h.capacity)
      (h.refresh t e).mem ∧ (h.refresh t e).capacity = h.capacity ∧
      (h.refresh t e).curSize = h.curSize := by
  have hidx : ((h.mem.modify t fun u => { u with expire := e }).cell t).index =
      (h.mem.cell t).index := by
    rw [Mem.modify_cell, Function.update_self]
  unfold refresh
  dsimp only
  rw [hidx]
  obtain ⟨hr, hcap⟩ := percolateDown_records
    (deref { h with mem := h.mem.modify t fun u => { u with expire := e } } t) (h.mem.cell t).index
  refine ⟨?_, hcap, percolateDown_curSize _ _⟩
  exact ((Mem.modify_records h.mem t _ _).trans (Mem.check_records _ _ _)).trans hr

/-! ## The stored indices -/

/-- The index stored in `p` is `0` or a position that holds `p`. -/
def At (h : TimeHeap) (p : Ptr) : Prop :=
  (h.mem.cell p).index = 0 ∨
    (h.mem.cell p).index < h.curSize ∧ h.array (h.mem.cell p).index = p

/-- Every timer of the array is at its index, or its index is `0`. -/
def Homed (h : TimeHeap) : Prop := ∀ i < h.curSize, h.At (h.array i)

/-- The same with a hole in the array, for the timers other than the one that waits. -/
def Anchored (h : TimeHeap) (tmp : Ptr) (hole : ℕ) : Prop :=
  ∀ i < h.curSize, i ≠ hole → h.array i ≠ tmp →
    (h.mem.cell (h.array i)).index = 0 ∨ (h.mem.cell (h.array i)).index < h.curSize ∧
      (h.mem.cell (h.array i)).index ≠ hole ∧ h.array (h.mem.cell (h.array i)).index = h.array i

/-- The timer `p` knows a position off the hole at which it stands. -/
def Knows (h : TimeHeap) (hole : ℕ) (p : Ptr) : Prop :=
  (h.mem.cell p).index < h.curSize ∧ (h.mem.cell p).index ≠ hole ∧ h.array (h.mem.cell p).index = p

/-- The timer that moves into the hole knows the position. -/
theorem knows_moved (h : TimeHeap) {hole c : ℕ} (hh : hole < h.curSize) (hne : c ≠ hole) :
    Knows (h.place hole (h.array c)) c (h.array c) := by
  unfold Knows
  rw [place_curSize, place_cell, place_array, Function.update_self]
  exact ⟨hh, hne.symm, Function.update_self _ _ _⟩

theorem Knows.move {h : TimeHeap} {hole c : ℕ} {p : Ptr} (k : Knows h hole p) (hp : p ≠ h.array c) :
    Knows (h.place hole (h.array c)) c p := by
  obtain ⟨hlt, hoff, hat⟩ := k
  unfold Knows
  rw [place_curSize, place_cell, place_array, Function.update_of_ne hp]
  refine ⟨hlt, fun he => hp ?_, ?_⟩
  · rw [← hat, he]
  · rw [Function.update_of_ne hoff, hat]

/-- When another timer fills the hole, `p` still stands at its index. -/
theorem Knows.finish {h : TimeHeap} {hole : ℕ} {p tmp : Ptr} (k : Knows h hole p) (hp : p ≠ tmp) :
    ((h.place hole tmp).mem.cell p).index < h.curSize ∧
      (h.place hole tmp).array ((h.place hole tmp).mem.cell p).index = p := by
  obtain ⟨hlt, hoff, hat⟩ := k
  rw [place_cell, place_array, Function.update_of_ne hp, Function.update_of_ne hoff]
  exact ⟨hlt, hat⟩

theorem Homed.congr {h h' : TimeHeap} (o : Homed h) (ha : h'.array = h.array)
    (hs : h'.curSize = h.curSize) (hc : h'.mem.cell = h.mem.cell) : Homed h' := by
  unfold Homed At
  rw [ha, hs, hc]
  exact o

theorem Anchored.congr {h h' : TimeHeap} {tmp : Ptr} {hole : ℕ} (o : Anchored h tmp hole)
    (ha : h'.array = h.array) (hs : h'.curSize = h.curSize) (hc : h'.mem.cell = h.mem.cell) :
    Anchored h' tmp hole := by
  unfold Anchored
  rw [ha, hs, hc]
  exact o

theorem Homed.index_lt {h : TimeHeap} (o : Homed h) {t : Ptr} (ht : t ∈ h.slots) :
    (h.mem.cell t).index < h.curSize := by
  obtain ⟨i, hi, rfl⟩ := mem_slots.mp ht
  rcases o i hi with h0 | ⟨hlt, -⟩
  · rw [h0]; exact Nat.zero_lt_of_lt hi
  · exact hlt

theorem Homed.anchored {h : TimeHeap} (o : Homed h) (hole : ℕ) :
    Anchored h (h.array hole) hole := by
  intro i hi _ hne
  rcases o i hi with h0 | ⟨hlt, hat⟩
  · exact Or.inl h0
  · refine Or.inr ⟨hlt, fun he => hne ?_, hat⟩
    rw [← hat, he]

/-- The timer at `c` moves into the hole, and the hole to `c`. -/
theorem Anchored.move {h : TimeHeap} {tmp : Ptr} {hole c : ℕ} (o : Anchored h tmp hole)
    (hh : hole < h.curSize) (hne : c ≠ hole) : Anchored (h.place hole (h.array c)) tmp c := by
  intro i hi hic hit
  rw [place_curSize] at hi
  rw [place_array] at hit ⊢
  by_cases hq : Function.update h.array hole (h.array c) i = h.array c
  · -- the timer moved, here or at another position that holds it too
    rw [hq]
    exact Or.inr (knows_moved h hh hne)
  · have hih : i ≠ hole := fun he => hq (by rw [he, Function.update_self])
    rw [Function.update_of_ne hih] at hit hq ⊢
    rcases o i hi hih hit with h0 | hknows
    · left
      rwa [place_cell, Function.update_of_ne hq]
    · exact Or.inr (Knows.move hknows hq)

/-- The waiting timer fills the hole. -/
theorem Anchored.finish {h : TimeHeap} {tmp : Ptr} {hole : ℕ} (o : Anchored h tmp hole)
    (hh : hole < h.curSize) : Homed (h.place hole tmp) := by
  intro i hi
  rw [place_curSize] at hi
  unfold At
  rw [place_curSize]
  by_cases hq : (h.place hole tmp).array i = tmp
  · rw [hq, place_cell, place_array, Function.update_self]
    exact Or.inr ⟨hh, Function.update_self _ _ _⟩
  · rw [place_array] at hq ⊢
    have hih : i ≠ hole := fun he => hq (by rw [he, Function.update_self])
    rw [Function.update_of_ne hih] at hq ⊢
    rcases o i hi hih hq with h0 | hknows
    · left
      rwa [place_cell, Function.update_of_ne hq]
    · exact Or.inr (Knows.finish hknows hq)

/-- What holds of a heap with a hole, whatever its faults, and of the heap after a move into the hole
holds when the loop of `percolate_down` stops. -/
theorem percolateLoop_invariant {I : TimeHeap → ℕ → Prop}
    (hcongr : ∀ h h' hole, h'.array = h.array → h'.curSize = h.curSize → h'.mem.cell = h.mem.cell →
      I h hole → I h' hole)
    (hmove : ∀ h hole c, hole < h.curSize → c ≠ hole → I h hole → I (h.place hole (h.array c)) c)
    (tmp : Ptr) {h : TimeHeap} {hole : ℕ} (hh : hole < h.curSize) (h0 : I h hole) :
    I (percolateLoop h tmp hole).1 (percolateLoop h tmp hole).2 ∧
      (percolateLoop h tmp hole).2 < h.curSize := by
  have hread : ∀ h hole, I h hole → I (h.compareAt tmp hole) hole := fun h hole =>
    hcongr h _ hole (compareAt_array h tmp hole) (compareAt_curSize h tmp hole)
      (compareAt_cell h tmp hole)
  induction h, hole using percolateLoop.induct tmp with
  | case1 h hole hlt hkey ih =>
    have hchild := lesserChild_lt hlt
    have hgt := lt_lesserChild h hole
    rw [percolateLoop, if_pos hlt, if_pos hkey]
    have hm := hmove _ hole (h.lesserChild hole) (by rwa [compareAt_curSize]) hgt.ne' (hread h hole h0)
    rw [compareAt_array] at hm
    have := ih (by rwa [place_curSize, compareAt_curSize]) hm
    rwa [place_curSize, compareAt_curSize] at this
  | case2 h hole hlt hkey =>
    rw [percolateLoop, if_pos hlt, if_neg hkey]
    exact ⟨hread h hole h0, hh⟩
  | case3 h hole hlt =>
    rw [percolateLoop, if_neg hlt]
    exact ⟨h0, hh⟩

theorem percolateLoop_anchored {h : TimeHeap} {tmp : Ptr} {hole : ℕ} (o : Anchored h tmp hole)
    (hh : hole < h.curSize) :
    Anchored (percolateLoop h tmp hole).1 tmp (percolateLoop h tmp hole).2 ∧
      (percolateLoop h tmp hole).2 < h.curSize :=
  percolateLoop_invariant (I := fun h hole => Anchored h tmp hole)
    (fun _ _ _ ha hs hc o => o.congr ha hs hc) (fun _ _ _ hh hne o => o.move hh hne) tmp hh o

theorem percolateDown_homed {h : TimeHeap} (o : Homed h) {hole : ℕ} (hh : hole < h.curSize) :
    Homed (h.percolateDown hole) := by
  have o' : Homed (h.slot hole) := o.congr (slot_array h hole) (slot_curSize h hole)
    (slot_cell h hole)
  have ha := o'.anchored hole
  rw [slot_array] at ha
  obtain ⟨hl, hstop⟩ := percolateLoop_anchored ha (by rwa [slot_curSize])
  unfold percolateDown
  refine hl.finish ?_
  rwa [percolateLoop_curSize]

theorem addLoop_anchored {h : TimeHeap} {timer : Ptr} {hole : ℕ} (o : Anchored h timer hole)
    (hh : hole < h.curSize) :
    Anchored (addLoop h timer hole).1 timer (addLoop h timer hole).2 := by
  have hread : ∀ {h : TimeHeap} {hole : ℕ}, Anchored h timer hole →
      Anchored ((h.visit ((hole - 1) / 2)).deref timer) timer hole := by
    intro h hole o
    refine o.congr (visit_array h _) (visit_curSize h _) ?_
    unfold deref
    rw [Mem.check_cell, visit_cell]
  induction h, hole using addLoop.induct timer with
  | case1 h hole h0 hkey =>
    rw [addLoop, if_pos h0, if_pos hkey]
    exact hread o
  | case2 h hole h0 hkey ih =>
    have hp := parent_lt h0
    have hm := (hread o).move (c := (hole - 1) / 2) (by simpa using hh) hp.ne
    rw [deref_array, visit_array] at hm
    rw [addLoop, if_pos h0, if_neg hkey]
    exact ih hm (by simpa using hp.trans hh)
  | case3 h hole h0 =>
    rw [addLoop, if_neg h0]
    exact o

/-- The new position is a hole for the timer added, in the old array or in the one twice as long. -/
theorem grown_anchored {h : TimeHeap} {t : Ptr} (o : ∀ i < h.curSize, h.array i ≠ t → h.At (h.array i)) :
    Anchored { h.grown with curSize := h.grown.curSize + 1 } t h.grown.curSize := by
  have hsize : h.grown.curSize = h.curSize := (grown_records h).2.1
  have harr : ∀ i < h.curSize, h.grown.array i = h.array i := by
    intro i hi
    unfold grown
    split_ifs
    · exact if_pos hi
    · rfl
  intro i hi hih hit
  change i < h.grown.curSize + 1 at hi
  change h.grown.array i ≠ t at hit
  show (h.grown.mem.cell (h.grown.array i)).index = 0 ∨
    (h.grown.mem.cell (h.grown.array i)).index < h.grown.curSize + 1 ∧
      (h.grown.mem.cell (h.grown.array i)).index ≠ h.grown.curSize ∧
      h.grown.array (h.grown.mem.cell (h.grown.array i)).index = h.grown.array i
  have hlt : i < h.curSize := by omega
  rw [harr i hlt] at hit ⊢
  rw [hsize]
  have hat : (h.grown.mem.cell (h.array i)).index = 0 ∨
      (h.grown.mem.cell (h.array i)).index < h.curSize ∧
        h.array (h.grown.mem.cell (h.array i)).index = h.array i := by
    by_cases hfull : h.capacity ≤ h.curSize
    · obtain ⟨-, -, -, -, hidx⟩ := renumber_rounds h h.curSize
      unfold grown
      rw [if_pos hfull]
      exact Or.inr (hidx i hlt)
    · have := o i hlt hit
      unfold grown
      rwa [if_neg hfull]
  rcases hat with h0 | ⟨hidx, hat⟩
  · exact Or.inl h0
  · refine Or.inr ⟨by omega, by omega, ?_⟩
    rw [harr _ hidx, hat]

theorem addTimer_homed {h : TimeHeap} {t : Ptr} (ht : t ≠ 0)
    (o : ∀ i < h.curSize, h.array i ≠ t → h.At (h.array i)) : Homed (h.addTimer t) := by
  have ha := addLoop_anchored (grown_anchored o) (Nat.lt_succ_self _)
  obtain ⟨-, -, hsize, hstop⟩ :=
    addLoop_records { h.grown with curSize := h.grown.curSize + 1 } t h.grown.curSize
  rw [addTimer_eq h ht]
  refine ha.finish ?_
  rw [hsize]
  exact Nat.lt_succ_of_le hstop

theorem delTimer_homed {h : TimeHeap} (o : Homed h) (t : Ptr) : Homed (h.delTimer t) := by
  obtain ⟨harr, hsize, -, -, -, -, hidx⟩ := delTimer_spec h t
  unfold Homed At
  rw [harr, hsize]
  simp only [hidx]
  exact o

/-- The last position goes: the timer there is moved to the root, whose index is `0`. -/
theorem replaced_homed {h : TimeHeap} (o : Homed h) : Homed h.replaced := by
  intro i hi
  rw [replaced_curSize] at hi
  unfold At
  rw [replaced_curSize, replaced_array, replaced_cell]
  by_cases hq : Function.update h.array 0 (h.array (h.curSize - 1)) i = h.array (h.curSize - 1)
  · rw [hq, Function.update_self]
    exact Or.inl rfl
  · have hi0 : i ≠ 0 := fun he => hq (by rw [he, Function.update_self])
    rw [Function.update_of_ne hi0] at hq ⊢
    rw [Function.update_of_ne hq]
    rcases o i (by omega) with h0 | ⟨hlt, hat⟩
    · exact Or.inl h0
    · by_cases hz : (h.mem.cell (h.array i)).index = 0
      · exact Or.inl hz
      · have hlast : (h.mem.cell (h.array i)).index ≠ h.curSize - 1 := fun he =>
          hq (by rw [← hat, he])
        refine Or.inr ⟨by omega, ?_⟩
        rw [Function.update_of_ne hz, hat]

theorem popTimer_homed {h : TimeHeap} (o : Homed h) : Homed h.popTimer := by
  by_cases he : h.empty = true
  · rw [popTimer_empty he]
    exact o
  by_cases hp : h.array 0 = 0
  · rw [popTimer_null he hp]
    exact o.congr (slot_array h 0) (slot_curSize h 0) (slot_cell h 0)
  rw [popTimer_replaced he hp]
  by_cases h1 : 0 < h.replaced.curSize
  · exact percolateDown_homed (replaced_homed o) h1
  · intro i hi
    rw [percolateDown_curSize] at hi
    exact absurd (Nat.zero_lt_of_lt hi) h1

theorem tickLoop_homed {h : TimeHeap} (o : Homed h) (cur : ℤ) : Homed (tickLoop h cur).1 := by
  have hvisit : ∀ {h : TimeHeap}, Homed h → Homed (h.visit 0) := fun {h} o =>
    o.congr (visit_array h 0) (visit_curSize h 0) (visit_cell h 0)
  induction h using tickLoop.induct cur with
  | case1 h he =>
    rw [tickLoop, if_pos he]
    exact o
  | case2 h he h0 =>
    rw [tickLoop, if_neg he, if_pos h0]
    exact o
  | case3 h he h0 hlt =>
    rw [tickLoop, if_neg he, if_neg h0, if_pos hlt]
    exact hvisit o
  | case4 h he h0 hlt ih =>
    rw [tickLoop, if_neg he, if_neg h0, if_neg hlt]
    exact ih ((popTimer_homed (hvisit o)).congr (slot_array _ 0) (slot_curSize _ 0) (slot_cell _ 0))

theorem tick_homed {h : TimeHeap} (o : Homed h) (cur : ℤ) : Homed (h.tick cur).1 :=
  tickLoop_homed (o.congr (slot_array h 0) (slot_curSize h 0) (slot_cell h 0)) cur

theorem refresh_homed {h : TimeHeap} (o : Homed h) {t : Ptr} (ht : t ∈ h.slots) (e : ℤ) :
    Homed (h.refresh t e) := by
  have hidx : ∀ p, ((h.mem.modify t fun u => { u with expire := e }).cell p).index =
      (h.mem.cell p).index :=
    congrFun (Mem.field_modify_of_eq h.mem t HeapTimer.index (fun u => { u with expire := e }) rfl)
  unfold refresh
  dsimp only
  rw [hidx]
  refine percolateDown_homed (fun i hi => ?_) (o.index_lt ht)
  have := o i hi
  unfold At deref
  dsimp only
  rw [Mem.check_cell, hidx]
  exact this

/-! ## The constructors -/

/-- `k` rounds of the array constructor's copying loop. -/
theorem fill_rounds (h : TimeHeap) (init : ℕ → Ptr) (k : ℕ) :
    h.mem.Records (k ≤ h.capacity) (h.fill init k).mem ∧ (h.fill init k).capacity = h.capacity ∧
      (h.fill init k).curSize = h.curSize ∧ ∀ i < k, (h.fill init k).array i = init i ∧
        ((h.fill init k).mem.cell (init i)).index < k ∧
        init ((h.fill init k).mem.cell (init i)).index = init i := by
  induction k with
  | zero => exact ⟨.of_eq rfl, rfl, rfl, fun i hi => absurd hi (Nat.not_lt_zero i)⟩
  | succ k ih =>
    obtain ⟨hr, hcap, hsize, hidx⟩ := ih
    rw [fill_succ, place_capacity, place_curSize, place_array, place_cell]
    refine ⟨(hr.mono (by omega)).trans ((place_records _ _ _).mono ?_), hcap, hsize, ?_⟩
    · rw [hcap]; omega
    · intro i hi
      refine ⟨?_, ?_⟩
      · by_cases hik : i = k
        · rw [hik, Function.update_self]
        · rw [Function.update_of_ne hik]
          exact (hidx i (by omega)).1
      · by_cases hq : init i = init k
        · rw [hq, Function.update_self]
          exact ⟨Nat.lt_succ_self k, rfl⟩
        · have hlt : i < k := by
            rcases Nat.lt_succ_iff_lt_or_eq.mp hi with hlt | rfl
            · exact hlt
            · exact absurd rfl hq
          rw [Function.update_of_ne hq]
          exact ⟨(hidx i hlt).2.1.trans (Nat.lt_succ_self k), (hidx i hlt).2.2⟩

theorem heapify_records {h : TimeHeap} (o : Homed h) {k : ℕ} (hk : k < h.curSize) :
    h.mem.Records (h.curSize ≤ h.capacity) (h.heapify k).mem ∧
      (h.heapify k).capacity = h.capacity ∧ (h.heapify k).curSize = h.curSize ∧
      Homed (h.heapify k) := by
  induction k generalizing h with
  | zero =>
    obtain ⟨hr, hcap⟩ := percolateDown_records h 0
    exact ⟨hr.mono (by omega), hcap, percolateDown_curSize h 0, percolateDown_homed o hk⟩
  | succ k ih =>
    obtain ⟨hr, hcap⟩ := percolateDown_records h (k + 1)
    have hsize := percolateDown_curSize h (k + 1)
    obtain ⟨hr', hcap', hsize', o'⟩ := ih (percolateDown_homed o hk) (by omega)
    refine ⟨(hr.mono (by omega)).trans (hr'.mono ?_), hcap'.trans hcap, hsize'.trans hsize, o'⟩
    rw [hsize, hcap]
    exact id

/-- What the accesses rest on: the sizes fit and the stored indices are in range. -/
structure Shape (h : TimeHeap) : Prop where
  size_le : h.curSize ≤ h.capacity
  homed : Homed h

theorem ofArray_shape {mem : Mem HeapTimer} {raw init : ℕ → Ptr} {size capacity : ℕ}
    {h : TimeHeap} (hh : ofArray mem raw init size capacity = some h) :
    Shape h ∧ h.capacity = capacity ∧ mem.Records True h.mem := by
  unfold ofArray at hh
  by_cases hcs : capacity < size
  · rw [if_pos hcs] at hh
    cases hh
  rw [if_neg hcs] at hh
  dsimp only at hh
  by_cases hs : size = 0
  · rw [if_pos hs] at hh
    obtain rfl := Option.some.inj hh
    refine ⟨⟨not_lt.mp hcs, fun i hi => ?_⟩, rfl, .of_eq rfl⟩
    exact absurd (hs ▸ hi) (Nat.not_lt_zero i)
  · rw [if_neg hs] at hh
    set g : TimeHeap := ⟨mem, fun i => if i < size then 0 else raw i, capacity, size⟩
    obtain ⟨hr, hcap, hsize, hidx⟩ := fill_rounds g init size
    have o : Homed (g.fill init size) := by
      intro i hi
      have hlt : i < size := hi.trans_eq hsize
      unfold At
      rw [hsize, (hidx i hlt).1, (hidx _ (hidx i hlt).2.1).1]
      exact Or.inr (hidx i hlt).2
    have hlast : (size - 1) / 2 < (g.fill init size).curSize := by
      rw [hsize]
      show (size - 1) / 2 < size
      omega
    obtain ⟨hr', hcap', hsize', o'⟩ := heapify_records o hlast
    have hc : h.capacity = capacity := by
      rw [← Option.some.inj hh, hcap', hcap]
    refine ⟨⟨?_, ?_⟩, hc, ?_⟩
    · rw [hc, ← Option.some.inj hh, hsize', hsize]
      exact not_lt.mp hcs
    · rw [← Option.some.inj hh]
      exact o'
    · rw [← Option.some.inj hh]
      refine (hr.mono fun _ => not_lt.mp hcs).trans (hr'.mono fun _ => ?_)
      rw [hsize, hcap]
      exact not_lt.mp hcs

end TimeHeap

/-! ## Runs -/

/-- A heap just constructed, with whatever sizes the constructors accept. -/
inductive HeapBuilt : TimeHeap → Prop
  | ofCapacity (mem : Mem HeapTimer) (hf : mem.faults = []) (cap : ℕ) :
      HeapBuilt (.ofCapacity mem cap)
  | ofArray {mem : Mem HeapTimer} {raw init : ℕ → Ptr} {size capacity : ℕ} {h : TimeHeap}
      (hf : mem.faults = []) (hh : TimeHeap.ofArray mem raw init size capacity = some h) :
      HeapBuilt h

/-- A call on the heap: `none` is `add_timer(NULL)`. Another `add` takes an object, and `refresh` a
timer of the heap. -/
inductive HeapCalled (h : TimeHeap) : Option HeapOp → TimeHeap → Prop
  | null : HeapCalled h none (h.addTimer 0)
  | add {t : Ptr} (ht : t ≠ 0) (timer : HeapTimer) :
      HeapCalled h (some (.add t timer)) (HeapOp.exec h (.add t timer))
  | del (t : Ptr) : HeapCalled h (some (.del t)) (HeapOp.exec h (.del t))
  | pop : HeapCalled h (some .pop) (HeapOp.exec h .pop)
  | tick (cur : ℤ) : HeapCalled h (some (.tick cur)) (HeapOp.exec h (.tick cur))
  | refresh {t : Ptr} (ht : t ∈ h.slots) (e : ℤ) :
      HeapCalled h (some (.refresh t e)) (HeapOp.exec h (.refresh t e))

/-- The call accesses the array of an empty heap: it adds a timer or ticks. -/
def HeapOp.touches : Option HeapOp → Bool
  | some (.add _ _) => true
  | some (.tick _) => true
  | _ => false

namespace TimeHeap

theorem built_shape {h : TimeHeap} (h0 : HeapBuilt h) : Shape h ∧ h.mem.InBounds := by
  have hempty : ∀ mem : Mem HeapTimer, mem.faults = [] → mem.InBounds := by
    intro mem hf i hi
    rw [hf] at hi
    cases hi
  cases h0 with
  | ofCapacity mem hf cap =>
    exact ⟨⟨Nat.zero_le _, fun i hi => absurd hi (Nat.not_lt_zero i)⟩, hempty mem hf⟩
  | ofArray hf hh =>
    obtain ⟨hs, -, hr⟩ := ofArray_shape hh
    exact ⟨hs, hr.inBounds trivial (hempty _ hf)⟩

/-- What a call does to the bounds; `touches` says whether it accesses the array of an empty heap. -/
structure Stays (h h' : TimeHeap) (touches : Bool) : Prop where
  records : h.mem.Records (Shape h ∧ (0 < h.capacity ∨ touches = false)) h'.mem
  outside : h.capacity = 0 → touches = true → ¬ h'.mem.InBounds
  shape : Shape h → 0 < h.capacity ∨ touches = false → Shape h'
  cap_pos : 0 < h'.capacity ↔ 0 < h.capacity

/-- Such a call stays in the array exactly when there are slots or it needs none. -/
theorem Stays.inBounds_iff {h h' : TimeHeap} {touches : Bool} (st : Stays h h' touches)
    (hs : h.mem.InBounds → Shape h) :
    h'.mem.InBounds ↔ h.mem.InBounds ∧ (0 < h.capacity ∨ touches = false) := by
  constructor
  · intro hin
    refine ⟨st.records.inBounds_of hin, ?_⟩
    by_contra hno
    rw [not_or, Nat.pos_iff_ne_zero, not_not, Bool.not_eq_false] at hno
    exact st.outside hno.1 hno.2 hin
  · rintro ⟨hin, hok⟩
    exact st.records.inBounds ⟨hs hin, hok⟩ hin

theorem called_stays {h h' : TimeHeap} {op : Option HeapOp} (hc : HeapCalled h op h') :
    Stays h h' (HeapOp.touches op) := by
  cases hc with
  | null =>
    have hnull : h.addTimer 0 = h := if_pos rfl
    rw [hnull]
    exact ⟨.of_eq rfl, (fun _ ht => by cases ht), fun s _ => s, Iff.rfl⟩
  | @add t ht timer =>
    set g : TimeHeap := { h with mem := h.mem.create t timer }
    have hcell : ∀ p, p ≠ t → g.mem.cell p = h.mem.cell p := fun p hp =>
      (congrFun (Mem.create_cell h.mem t timer) p).trans (Function.update_of_ne hp _ _)
    obtain ⟨hr, hcap, hsize⟩ := addTimer_records g ht
    have hcreate : ∀ P, h.mem.Records P g.mem := fun P => .of_eq rfl
    refine ⟨(hcreate _).trans (hr.mono ?_), fun h0 _ => addTimer_outOfBounds (h := g) h0 ht, ?_, hcap⟩
    · rintro ⟨s, hok⟩
      exact ⟨s.size_le, hok.resolve_right Bool.noConfusion⟩
    · intro s hok
      refine ⟨hsize s.size_le (hok.resolve_right Bool.noConfusion), addTimer_homed ht ?_⟩
      intro i hi hne
      unfold At
      rw [hcell _ hne]
      exact s.homed i hi
  | del t =>
    obtain ⟨-, hsize, hcap, -⟩ := delTimer_spec h t
    refine ⟨delTimer_records h t _, (fun _ ht => by cases ht), fun s _ => ?_, ?_⟩
    · refine ⟨?_, delTimer_homed s.homed t⟩
      show (h.delTimer t).curSize ≤ (h.delTimer t).capacity
      rw [hsize, hcap]
      exact s.size_le
    · show 0 < (h.delTimer t).capacity ↔ _
      rw [hcap]
  | pop =>
    obtain ⟨hr, hcap, hsize⟩ := popTimer_records h
    refine ⟨hr.mono fun hp => hp.1.size_le, (fun _ ht => by cases ht), fun s _ => ?_, ?_⟩
    · exact ⟨(hsize.trans s.size_le).trans_eq hcap.symm, popTimer_homed s.homed⟩
    · show 0 < h.popTimer.capacity ↔ _
      rw [hcap]
  | tick cur =>
    obtain ⟨hr, hcap, hsize⟩ := tick_records h cur
    refine ⟨hr.mono ?_, fun h0 _ => tick_outOfBounds h0 cur, fun s _ => ?_, ?_⟩
    · rintro ⟨s, hok⟩
      exact ⟨s.size_le, hok.resolve_right Bool.noConfusion⟩
    · exact ⟨(hsize.trans s.size_le).trans_eq hcap.symm, tick_homed s.homed cur⟩
    · show 0 < (h.tick cur).1.capacity ↔ _
      rw [hcap]
  | @refresh t ht e =>
    obtain ⟨hr, hcap, hsize⟩ := refresh_records h t e
    refine ⟨hr.mono ?_, (fun _ ht => by cases ht), fun s _ => ?_, ?_⟩
    · rintro ⟨s, -⟩
      exact ⟨(s.homed.index_lt ht).trans_le s.size_le, s.size_le⟩
    · refine ⟨?_, refresh_homed s.homed ht e⟩
      show (h.refresh t e).curSize ≤ (h.refresh t e).capacity
      rw [hsize, hcap]
      exact s.size_le
    · show 0 < (h.refresh t e).capacity ↔ _
      rw [hcap]

end TimeHeap

/-- **Array bounds.** After a run of calls on a heap of any capacity, every array access was inside
the array exactly when the heap was constructed with a slot, or no call added a timer or ticked. -/
theorem heap_in_bounds {h₀ h : TimeHeap} {ops : List (Option HeapOp)} (h0 : HeapBuilt h₀)
    (hr : Run HeapCalled h₀ ops h) :
    (∀ i, .outOfBounds i ∉ h.mem.faults) ↔
      1 ≤ h₀.capacity ∨ ∀ op ∈ ops, HeapOp.touches op = false := by
  obtain ⟨hs₀, hin₀⟩ := TimeHeap.built_shape h0
  suffices (h.mem.InBounds ↔ 0 < h₀.capacity ∨ ∀ op ∈ ops, HeapOp.touches op = false) ∧
      (h.mem.InBounds → TimeHeap.Shape h) ∧ (0 < h.capacity ↔ 0 < h₀.capacity) from this.1
  refine hr.history (fun ops h => (h.mem.InBounds ↔
    0 < h₀.capacity ∨ ∀ op ∈ ops, HeapOp.touches op = false) ∧
      (h.mem.InBounds → TimeHeap.Shape h) ∧ (0 < h.capacity ↔ 0 < h₀.capacity)) ?_ ?_
  · exact ⟨iff_of_true hin₀ (Or.inr fun _ hm => by cases hm), fun _ => hs₀, Iff.rfl⟩
  · rintro ops h op h' ⟨hiff, hs, hcap⟩ hc
    have st := TimeHeap.called_stays hc
    have hstep := st.inBounds_iff hs
    refine ⟨?_, fun hin => ?_, st.cap_pos.trans hcap⟩
    · rw [hstep, hiff, hcap, ← or_and_left]
      simp [or_imp, forall_and]
    · obtain ⟨hin', hok⟩ := hstep.mp hin
      exact st.shape (hs hin') hok

/-- A heap of one slot grows, is refreshed and is drained by a tick. -/
theorem heap_in_bounds_one :
    let ops : List (Option HeapOp) := [none, some (.add 8 ⟨5, 1, 0, 0⟩), some (.add 16 ⟨3, 1, 1, 0⟩),
      some (.refresh 16 9), some (.tick 20)]
    let h₀ : TimeHeap := .ofCapacity (Mem.blank ⟨0, 0, 0, 0⟩) 1
    ∃ h, Run HeapCalled h₀ ops h ∧ ((∀ i, .outOfBounds i ∉ h.mem.faults) ↔
      1 ≤ h₀.capacity ∨ ∀ op ∈ ops, HeapOp.touches op = false) := by
  intro ops h₀
  have hr : Run HeapCalled h₀ ops _ :=
    .cons .null (.cons (.add (by decide) _) (.cons (.add (by decide) _)
      (.cons (.refresh (by decide +kernel) 9) (.single (.tick 20)))))
  exact ⟨_, hr, heap_in_bounds (.ofCapacity _ rfl 1) hr⟩

/-- `time_heap(0)` is accepted, and its first `tick` reads `array[0]`. -/
theorem tick_of_no_slots : ¬ ∀ (h₀ h : TimeHeap) (ops : List (Option HeapOp)), HeapBuilt h₀ →
    Run HeapCalled h₀ ops h → ∀ i, .outOfBounds i ∉ h.mem.faults := by
  intro hall
  have hr : Run HeapCalled (.ofCapacity (Mem.blank ⟨0, 0, 0, 0⟩) 0) [some (.tick 0)]
      (HeapOp.exec (.ofCapacity (Mem.blank ⟨0, 0, 0, 0⟩) 0) (.tick 0)) :=
    .single (.tick 0)
  exact hall _ _ _ (.ofCapacity _ rfl 0) hr 0 (by decide +kernel)

end SocketTest.Timer
