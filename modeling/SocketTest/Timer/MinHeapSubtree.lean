import SocketTest.Timer.MinHeapBounds

/-!
# One call of `percolate_down`

What `percolate_down(hole)` does to an array of which only the order below the hole is known: elsewhere
the array may be in any order, and no back index need be right before the call. The order is the
library's `siftDown_subtree`. For the indices the loop keeps `Settled`: a timer at a position that has
changed knows a position at which it stands.
-/

namespace SocketTest.Timer

open SocketTest.Lib

namespace TimeHeap

/-- `timer->expire = expire`. -/
def setExpire (h : TimeHeap) (timer : Ptr) (expire : ℤ) : TimeHeap :=
  { h with mem := h.mem.modify timer fun t => { t with expire := expire } }

/-- Below the hole every parent expires no later than its children. -/
def OrderedBelow (h : TimeHeap) (hole : ℕ) : Prop :=
  ∀ i, 0 < i → i < h.curSize → InSubtree hole (parent i) → parent i ≠ hole →
    h.expire (h.array (parent i)) ≤ h.expire (h.array i)

/-- `h'` is `h` with the subtree of `hole` in heap order: its timers are permuted, nothing else moves,
and every timer that has moved, or was put down again, knows its position. -/
structure Restored (h : TimeHeap) (hole : ℕ) (h' : TimeHeap) : Prop where
  curSize : h'.curSize = h.curSize
  expire : h'.expire = h.expire
  rearranges : Rearranges {i | i < h.curSize ∧ InSubtree hole i} h.array h'.array
  ordered : OrderedOn h'.expire h'.curSize {i | InSubtree hole i} h'.array
  index : Set.InjOn h.array {i | i < h.curSize} → ∀ i < h.curSize,
    h'.array i ≠ h.array i ∨ h'.array i = h.array hole → (h'.mem.cell (h'.array i)).index = i

/-! ## The indices -/

/-- Off the hole, a timer at a position that is not as in `h₀` knows a position of its own. -/
def Settled (h₀ h : TimeHeap) (hole : ℕ) : Prop :=
  ∀ i ≠ hole, h.array i ≠ h₀.array i → h.Knows hole (h.array i)

variable {h₀ h h' : TimeHeap} {hole c : ℕ} {tmp : Ptr}

theorem settled_start (h : TimeHeap) (hole : ℕ) : Settled h h hole := fun _ _ hne => absurd rfl hne

theorem Settled.congr (o : Settled h₀ h hole) (ha : h'.array = h.array) (hs : h'.curSize = h.curSize)
    (hc : h'.mem.cell = h.mem.cell) : Settled h₀ h' hole := by
  unfold Settled Knows
  rw [ha, hs, hc]
  exact o

theorem Settled.move (o : Settled h₀ h hole) (hh : hole < h.curSize) (hne : c ≠ hole) :
    Settled h₀ (h.place hole (h.array c)) c := by
  intro i hic hi
  by_cases hq : (h.place hole (h.array c)).array i = h.array c
  · rw [hq]
    exact knows_moved h hh hne
  · rw [place_array] at hi hq ⊢
    have hih : i ≠ hole := fun he => hq (by rw [he, Function.update_self])
    rw [Function.update_of_ne hih] at hi hq ⊢
    exact (o i hih hi).move hq

/-- Every timer that has moved, and the one put down, stands at its index. -/
theorem Settled.finish (o : Settled h₀ h hole) (hh : hole < h.curSize) {i : ℕ}
    (hi : (h.place hole tmp).array i ≠ h₀.array i ∨ (h.place hole tmp).array i = tmp) :
    ((h.place hole tmp).mem.cell ((h.place hole tmp).array i)).index < h.curSize ∧
      (h.place hole tmp).array ((h.place hole tmp).mem.cell ((h.place hole tmp).array i)).index =
        (h.place hole tmp).array i := by
  by_cases hq : (h.place hole tmp).array i = tmp
  · rw [hq, place_cell, Function.update_self]
    exact ⟨hh, Function.update_self _ _ _⟩
  · have hih : i ≠ hole := fun he => hq (by rw [he, place_array, Function.update_self])
    have hsame : (h.place hole tmp).array i = h.array i := Function.update_of_ne hih _ _
    rw [hsame] at hi hq ⊢
    exact (o i hih (hi.resolve_right hq)).finish hq

theorem percolateDown_settled (hh : hole < h.curSize) {i : ℕ}
    (hi : (h.percolateDown hole).array i ≠ h.array i ∨
      (h.percolateDown hole).array i = h.array hole) :
    ((h.percolateDown hole).mem.cell ((h.percolateDown hole).array i)).index < h.curSize ∧
      (h.percolateDown hole).array
        ((h.percolateDown hole).mem.cell ((h.percolateDown hole).array i)).index =
          (h.percolateDown hole).array i := by
  have hstart : Settled h (h.slot hole) hole := (settled_start h hole).congr (slot_array h hole)
    (slot_curSize h hole) (slot_cell h hole)
  obtain ⟨hl, hstop⟩ := percolateLoop_invariant (I := Settled h)
    (fun _ _ _ ha hs hc o => o.congr ha hs hc) (fun _ _ _ hh hne o => o.move hh hne)
    (h.array hole) (by rwa [slot_curSize]) hstart
  have hfinish := hl.finish (by rwa [percolateLoop_curSize]) hi
  rwa [percolateLoop_curSize, slot_curSize] at hfinish

/-! ## The order -/

theorem restored_percolateDown (hh : hole < h.curSize) (ho : h.OrderedBelow hole) :
    Restored h hole (h.percolateDown hole) where
  curSize := percolateDown_curSize h hole
  expire := percolateDown_expire h hole
  rearranges := percolateDown_rearranges hh
  ordered := by
    rw [percolateDown_expire, percolateDown_curSize, percolateDown_array]
    exact siftDown_subtree ho _
  index hinj i hi hmoved := by
    obtain ⟨hlt, hat⟩ := percolateDown_settled hh hmoved
    exact (percolateDown_rearranges hh).injOn (fun _ hi => hi.1) hinj hlt hi hat

theorem ordered_setExpire (hh : hole < h.curSize) {e : ℤ} (he : h.expire (h.array hole) ≤ e)
    (hown : ∀ i < h.curSize, h.array i = h.array hole → i = hole)
    (ho : Ordered h.expire h.curSize h.array) :
    Ordered ((h.setExpire (h.array hole) e).percolateDown hole).expire h.curSize
      ((h.setExpire (h.array hole) e).percolateDown hole).array := by
  have hexp : (h.setExpire (h.array hole) e).expire = Function.update h.expire (h.array hole) e :=
    Mem.field_modify h.mem (h.array hole) HeapTimer.expire fun t => { t with expire := e }
  have hdown : DownOrder (h.setExpire (h.array hole) e).expire h.curSize 0 h.array (h.array hole)
      hole := by
    rw [hexp]
    exact ho.raise hh (fun i hi hne he => hne (hown i hi he)) he
  have hord := percolateDown_ordered (h := h.setExpire (h.array hole) e) hdown
  rw [percolateDown_curSize] at hord
  exact (orderedFrom_zero _ _).mp hord

end TimeHeap

/-- **One call of `percolate_down`.** With the subtree of the hole in heap order below the hole, the call
permutes the timers of the subtree into heap order, leaves every other position as it is, and each timer
that it moves or puts down again knows its position. So a heap in which the timer at the hole gets a
later `expire` is a heap again after the call. -/
theorem percolate_restores {h : TimeHeap} {hole : ℕ} (hh : hole < h.curSize) :
    (h.OrderedBelow hole → h.Restored hole (h.percolateDown hole)) ∧
      ∀ e, h.expire (h.array hole) ≤ e →
        (∀ i < h.curSize, h.array i = h.array hole → i = hole) →
        Ordered h.expire h.curSize h.array →
        Ordered ((h.setExpire (h.array hole) e).percolateDown hole).expire h.curSize
          ((h.setExpire (h.array hole) e).percolateDown hole).array := by
  refine ⟨TimeHeap.restored_percolateDown hh, fun e he hown ho => ?_⟩
  exact TimeHeap.ordered_setExpire hh he hown ho

/-- Five timers in the order of their addresses, which are also their expiries; no index is set. -/
def five : TimeHeap where
  mem := ⟨fun p => ⟨p, 0, 0, 0⟩, fun p => p ≠ 0, [], []⟩
  array := fun i => 8 * (i + 1)
  capacity := 5
  curSize := 5

/-- The timer at the root gets the last `expire` and sinks two levels. -/
theorem percolate_restores_five :
    let h := five.setExpire 8 100
    (h.percolateDown 0).array 3 = 8 ∧ h.Restored 0 (h.percolateDown 0) ∧
      Ordered (h.percolateDown 0).expire 5 (h.percolateDown 0).array := by
  intro h
  have hbelow : h.OrderedBelow 0 := by
    intro i h0 hi _ hp
    change i < 5 at hi
    interval_cases i
    · exact absurd rfl hp
    · exact absurd rfl hp
    · decide
    · decide
  have hown : ∀ i < five.curSize, five.array i = five.array 0 → i = 0 := by decide
  have hordered : Ordered five.expire five.curSize five.array := by
    intro i h0 hi
    change i < 5 at hi
    interval_cases i <;> decide
  refine ⟨by decide +kernel, (percolate_restores (by decide)).1 hbelow, ?_⟩
  exact (percolate_restores (h := five) (by decide)).2 100 (by decide) hown hordered

end SocketTest.Timer
