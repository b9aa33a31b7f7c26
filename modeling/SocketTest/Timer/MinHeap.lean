import SocketTest.Lib.HeapOrder
import SocketTest.Timer.Basic

/-!
# `time_heap`: timers in a binary min-heap

The model of `timer/min_heap_timer.h`. The heap is an array of pointers to timers, ordered by
`expire`; each timer keeps the position it stands at in `index`. Positions move by shifting a hole,
never by swapping: `percolateLoop` and `addLoop` are the loops of `percolate_down` and `add_timer`.

Sizes are natural numbers: `2*capacity` and `hole*2 + 1` are taken without the wrap of an `int`,
which needs more than `2 ^ 30` timers.
-/

namespace SocketTest.Timer

open SocketTest.Lib

/-- `heap_timer`. The callback is a code address, `0` for `NULL`; `userData` is the number of the
`client_data` record pointed to. -/
structure HeapTimer where
  expire : ℤ
  cbFunc : Ptr
  userData : ℕ
  index : ℕ
  deriving DecidableEq, Repr

def HeapTimer.call (t : HeapTimer) : Call := ⟨t.cbFunc, t.userData⟩

/-- `time_heap`, together with the timers it points to. -/
structure TimeHeap where
  mem : Mem HeapTimer
  array : ℕ → Ptr
  capacity : ℕ
  curSize : ℕ

namespace TimeHeap

/-! ## Field and slot accesses -/

/-- The field `expire` behind `p`. -/
def expire (h : TimeHeap) (p : Ptr) : ℤ := (h.mem.cell p).expire

/-- An access to `array[i]`. -/
def slot (h : TimeHeap) (i : ℕ) : TimeHeap :=
  if i < h.capacity then h else { h with mem := h.mem.fault (.outOfBounds i) }

/-- An access to a field of the timer `p`. -/
def deref (h : TimeHeap) (p : Ptr) : TimeHeap := { h with mem := h.mem.check p }

/-- An access to a field of `array[i]`. -/
def visit (h : TimeHeap) (i : ℕ) : TimeHeap := (h.slot i).deref (h.array i)

/-- `array[i] = p; array[i]->index = i`. -/
def place (h : TimeHeap) (i : ℕ) (p : Ptr) : TimeHeap :=
  { h.slot i with
    array := Function.update h.array i p
    mem := (h.slot i).mem.modify p fun t => { t with index := i } }

@[simp] theorem slot_array (h : TimeHeap) (i : ℕ) : (h.slot i).array = h.array := by
  unfold slot; split_ifs <;> rfl

@[simp] theorem slot_capacity (h : TimeHeap) (i : ℕ) : (h.slot i).capacity = h.capacity := by
  unfold slot; split_ifs <;> rfl

@[simp] theorem slot_curSize (h : TimeHeap) (i : ℕ) : (h.slot i).curSize = h.curSize := by
  unfold slot; split_ifs <;> rfl

@[simp] theorem slot_cell (h : TimeHeap) (i : ℕ) : (h.slot i).mem.cell = h.mem.cell := by
  unfold slot; split_ifs <;> rfl

@[simp] theorem slot_live (h : TimeHeap) (i : ℕ) : (h.slot i).mem.live = h.mem.live := by
  unfold slot; split_ifs <;> rfl

@[simp] theorem slot_deleted (h : TimeHeap) (i : ℕ) : (h.slot i).mem.deleted = h.mem.deleted := by
  unfold slot; split_ifs <;> rfl

theorem slot_of_lt {h : TimeHeap} {i : ℕ} (hi : i < h.capacity) : h.slot i = h := by
  unfold slot; rw [if_pos hi]

@[simp] theorem deref_array (h : TimeHeap) (p : Ptr) : (h.deref p).array = h.array := rfl
@[simp] theorem deref_curSize (h : TimeHeap) (p : Ptr) : (h.deref p).curSize = h.curSize := rfl

theorem deref_of_valid {h : TimeHeap} {p : Ptr} (hp : h.mem.Valid p) : h.deref p = h := by
  unfold deref; rw [Mem.check_of_valid hp]

@[simp] theorem visit_array (h : TimeHeap) (i : ℕ) : (h.visit i).array = h.array := by
  simp [visit]
@[simp] theorem visit_curSize (h : TimeHeap) (i : ℕ) : (h.visit i).curSize = h.curSize := by
  simp [visit]

@[simp] theorem visit_capacity (h : TimeHeap) (i : ℕ) : (h.visit i).capacity = h.capacity :=
  slot_capacity h i
@[simp] theorem visit_cell (h : TimeHeap) (i : ℕ) : (h.visit i).mem.cell = h.mem.cell := by
  unfold visit deref
  rw [Mem.check_cell, slot_cell]

theorem visit_of_valid {h : TimeHeap} {i : ℕ} (hi : i < h.capacity)
    (hp : h.mem.Valid (h.array i)) : h.visit i = h := by
  unfold visit; rw [slot_of_lt hi, deref_of_valid hp]

@[simp] theorem place_array (h : TimeHeap) (i : ℕ) (p : Ptr) :
    (h.place i p).array = Function.update h.array i p := rfl
@[simp] theorem place_capacity (h : TimeHeap) (i : ℕ) (p : Ptr) :
    (h.place i p).capacity = h.capacity := slot_capacity h i
@[simp] theorem place_curSize (h : TimeHeap) (i : ℕ) (p : Ptr) :
    (h.place i p).curSize = h.curSize := slot_curSize h i
@[simp] theorem place_cell (h : TimeHeap) (i : ℕ) (p : Ptr) :
    (h.place i p).mem.cell =
      Function.update h.mem.cell p { h.mem.cell p with index := i } := by simp [place]
@[simp] theorem place_live (h : TimeHeap) (i : ℕ) (p : Ptr) :
    (h.place i p).mem.live = h.mem.live := by simp [place]
@[simp] theorem place_deleted (h : TimeHeap) (i : ℕ) (p : Ptr) :
    (h.place i p).mem.deleted = h.mem.deleted := by simp [place]

theorem place_faults {h : TimeHeap} {i : ℕ} {p : Ptr} (hi : i < h.capacity)
    (hp : h.mem.Valid p) : (h.place i p).mem.faults = h.mem.faults := by
  unfold place
  rw [slot_of_lt hi]
  exact Mem.modify_faults hp _

/-! ## percolate_down -/

/-- `child = hole*2 + 1`, one more when the right child expires earlier. -/
def lesserChild (h : TimeHeap) (hole : ℕ) : ℕ :=
  if hole * 2 + 2 < h.curSize ∧
      h.expire (h.array (hole * 2 + 2)) < h.expire (h.array (hole * 2 + 1)) then
    hole * 2 + 2
  else hole * 2 + 1

/-- The accesses of the two comparisons of one round: both children when the right one exists,
then the child chosen and `tmp`. -/
def compareAt (h : TimeHeap) (tmp : Ptr) (hole : ℕ) : TimeHeap :=
  (((if hole * 2 + 2 < h.curSize then (h.visit (hole * 2 + 2)).visit (hole * 2 + 1) else h).visit
    (h.lesserChild hole)).deref tmp)

theorem lt_lesserChild (h : TimeHeap) (hole : ℕ) : hole < h.lesserChild hole := by
  unfold lesserChild; split_ifs <;> omega

@[simp] theorem compareAt_curSize (h : TimeHeap) (tmp : Ptr) (hole : ℕ) :
    (h.compareAt tmp hole).curSize = h.curSize := by unfold compareAt; split_ifs <;> simp

@[simp] theorem compareAt_capacity (h : TimeHeap) (tmp : Ptr) (hole : ℕ) :
    (h.compareAt tmp hole).capacity = h.capacity := by
  unfold compareAt
  split_ifs
  · exact ((visit_capacity _ _).trans (visit_capacity _ _)).trans (visit_capacity _ _)
  · exact visit_capacity _ _

@[simp] theorem compareAt_array (h : TimeHeap) (tmp : Ptr) (hole : ℕ) :
    (h.compareAt tmp hole).array = h.array := by
  unfold compareAt
  split_ifs <;> simp

@[simp] theorem compareAt_cell (h : TimeHeap) (tmp : Ptr) (hole : ℕ) :
    (h.compareAt tmp hole).mem.cell = h.mem.cell := by
  unfold compareAt deref
  rw [Mem.check_cell, visit_cell]
  split_ifs
  · rw [visit_cell, visit_cell]
  · rfl

/-- The loop of `percolate_down`: the heap and the position the hole stops at. -/
def percolateLoop (h : TimeHeap) (tmp : Ptr) (hole : ℕ) : TimeHeap × ℕ :=
  -- `(hole*2 + 1) <= (cur_size - 1)`
  if hole * 2 + 1 < h.curSize then
    if h.expire (h.array (h.lesserChild hole)) < h.expire tmp then
      percolateLoop ((h.compareAt tmp hole).place hole (h.array (h.lesserChild hole))) tmp
        (h.lesserChild hole)
    else (h.compareAt tmp hole, hole)
  else (h, hole)
termination_by h.curSize - hole
decreasing_by
  have := lt_lesserChild h hole
  rw [place_curSize, compareAt_curSize]
  omega

def percolateDown (h : TimeHeap) (hole : ℕ) : TimeHeap :=
  let stop := percolateLoop (h.slot hole) (h.array hole) hole
  stop.1.place stop.2 (h.array hole)

theorem percolateLoop_curSize (h : TimeHeap) (tmp : Ptr) (hole : ℕ) :
    (percolateLoop h tmp hole).1.curSize = h.curSize := by
  induction h, hole using percolateLoop.induct tmp with
  | case1 h hole hlt hkey ih => rw [percolateLoop, if_pos hlt, if_pos hkey, ih]; simp
  | case2 h hole hlt hkey => rw [percolateLoop, if_pos hlt, if_neg hkey]; simp
  | case3 h hole hlt => rw [percolateLoop, if_neg hlt]

@[simp] theorem percolateDown_curSize (h : TimeHeap) (hole : ℕ) :
    (h.percolateDown hole).curSize = h.curSize := by
  simp [percolateDown, percolateLoop_curSize]

/-! ## The constructors -/

/-- `time_heap(cap)`: every slot null. -/
def ofCapacity (mem : Mem HeapTimer) (cap : ℕ) : TimeHeap := ⟨mem, fun _ => 0, cap, 0⟩

/-- `for i = k; i >= 0; --i: percolate_down(i)`. -/
def heapify (h : TimeHeap) : ℕ → TimeHeap
  | 0 => h.percolateDown 0
  | k + 1 => heapify (h.percolateDown (k + 1)) k

/-- `array[i] = init_array[i]; array[i]->index = i` for `i < size`. -/
def fill (h : TimeHeap) (initArray : ℕ → Ptr) (size : ℕ) : TimeHeap :=
  (List.range size).foldl (fun h i => h.place i (initArray i)) h

/-- `time_heap(init_array, size, capacity)`. `raw` is what the new array holds before the
constructor writes to it; `none` is the exception thrown when `capacity < size`. -/
def ofArray (mem : Mem HeapTimer) (raw initArray : ℕ → Ptr) (size capacity : ℕ) :
    Option TimeHeap :=
  if capacity < size then none
  else
    let h : TimeHeap := ⟨mem, fun i => if i < size then 0 else raw i, capacity, size⟩
    if size = 0 then some h else some ((h.fill initArray size).heapify ((size - 1) / 2))

/-! ## add_timer -/

/-- The copying loop of `resize` on the timers: `tmp[i] = array[i]; tmp[i]->index = i`. -/
def renumber (h : TimeHeap) : TimeHeap :=
  (List.range h.curSize).foldl (fun g i => { g.slot i with
    mem := (g.slot i).mem.modify (g.array i) fun t => { t with index := i } }) h

/-- `resize`: the first `cur_size` pointers move to an array of twice the length. -/
def resize (h : TimeHeap) : TimeHeap :=
  { h.renumber with
    array := fun i => if i < h.curSize then h.array i else 0
    capacity := 2 * h.capacity }

/-- The loop of `add_timer`: the heap and the position the hole stops at. -/
def addLoop (h : TimeHeap) (timer : Ptr) (hole : ℕ) : TimeHeap × ℕ :=
  if 0 < hole then
    if h.expire (h.array ((hole - 1) / 2)) ≤ h.expire timer then
      ((h.visit ((hole - 1) / 2)).deref timer, hole)
    else
      addLoop (((h.visit ((hole - 1) / 2)).deref timer).place hole (h.array ((hole - 1) / 2))) timer
        ((hole - 1) / 2)
  else (h, hole)
termination_by hole
decreasing_by omega

def addTimer (h : TimeHeap) (timer : Ptr) : TimeHeap :=
  if timer = 0 then h
  else
    let h₁ := if h.capacity ≤ h.curSize then h.resize else h
    let stop := addLoop { h₁ with curSize := h₁.curSize + 1 } timer h₁.curSize
    stop.1.place stop.2 timer

/-! ## del_timer, top, pop_timer and tick -/

/-- The timer stays in the heap; only its callback is cleared. -/
def delTimer (h : TimeHeap) (timer : Ptr) : TimeHeap :=
  if timer = 0 then h
  else { h with mem := h.mem.modify timer fun t => { t with cbFunc := 0 } }

def empty (h : TimeHeap) : Bool := h.curSize == 0

def top (h : TimeHeap) : Ptr := if h.empty then 0 else h.array 0

def popTimer (h : TimeHeap) : TimeHeap :=
  if h.empty then h
  else if h.array 0 ≠ 0 then
    let h₁ : TimeHeap :=
      { h.slot 0 with mem := (h.slot 0).mem.delete (h.array 0), curSize := h.curSize - 1 }
    -- `array[0] = array[--cur_size]; array[0]->index=0`: on the last timer this is the one deleted
    ((h₁.slot (h.curSize - 1)).place 0 (h.array (h.curSize - 1))).percolateDown 0
  else h.slot 0

theorem popTimer_empty {h : TimeHeap} (he : h.empty = true) : h.popTimer = h := by
  unfold popTimer
  rw [if_pos he]

theorem popTimer_null {h : TimeHeap} (he : ¬ h.empty = true) (hp : h.array 0 = 0) :
    h.popTimer = h.slot 0 := by
  unfold popTimer
  rw [if_neg he, if_neg (not_not.mpr hp)]

theorem popTimer_curSize {h : TimeHeap} (hp : h.array 0 ≠ 0) :
    h.popTimer.curSize = h.curSize - 1 := by
  unfold popTimer
  by_cases he : h.empty
  · rw [if_pos he]
    have : h.curSize = 0 := by simpa [empty] using he
    omega
  · rw [if_neg he, if_pos hp]; simp

/-- The `while` loop of `tick`, with the callbacks it invokes. `tmp` is `array[0]` at the head of
every round. -/
def tickLoop (h : TimeHeap) (cur : ℤ) : TimeHeap × List Call :=
  if h.empty then (h, [])
  else if h.array 0 = 0 then (h, [])
  else if cur < h.expire (h.array 0) then (h.visit 0, [])
  else
    let rest := tickLoop ((h.visit 0).popTimer.slot 0) cur
    (rest.1, if (h.mem.cell (h.array 0)).cbFunc ≠ 0 then
      (h.mem.cell (h.array 0)).call :: rest.2 else rest.2)
termination_by h.curSize
decreasing_by
  rename_i he hp _
  have h0 : h.curSize ≠ 0 := by simpa [empty] using he
  rw [slot_curSize, popTimer_curSize (by simpa using hp), visit_curSize]
  omega

/-- `tick` with the clock at `cur`. -/
def tick (h : TimeHeap) (cur : ℤ) : TimeHeap × List Call := tickLoop (h.slot 0) cur

/-- The server's refresh of a client's timer: the new `expire`, then
`percolate_down(timer->index)`. -/
def refresh (h : TimeHeap) (timer : Ptr) (expire : ℤ) : TimeHeap :=
  let h₁ : TimeHeap := { h with mem := h.mem.modify timer fun t => { t with expire := expire } }
  (h₁.deref timer).percolateDown (h₁.mem.cell timer).index

end TimeHeap

end SocketTest.Timer
