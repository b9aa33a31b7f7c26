import SocketTest.Lib.SwapRemove
import SocketTest.Timer.MinHeapInv

/-!
# What each operation does to a `time_heap`

One theorem for each operation: from a heap that satisfies `Rep` it says that the result does, which
timers the result holds (as a permutation of `slots`), and what becomes of the objects, the faults
and the timers' data. `tickLoop_spec` gives the callbacks of a tick: those of the timers that are
due, in the order of their `expire`.

The last timer of a heap is popped through a dangling pointer: `array[0]->index = 0` comes after
`delete array[0]`, and `array[0]` is the same pointer when it is the only one. `popTimer_spec` says
so in its clause on the faults.
-/

namespace SocketTest.Timer

open SocketTest.Lib

namespace TimeHeap

/-! ## refresh -/

/-- Raising `expire` of a timer of the heap and percolating it from its stored index gives a heap
of the same timers. -/
theorem refresh_spec {h : TimeHeap} (r : Rep h) {t : Ptr} {e : ℤ} (ht : t ∈ h.slots)
    (he : h.expire t ≤ e) :
    Rep (h.refresh t e) ∧ (h.refresh t e).slots.Perm h.slots ∧
      Frame { h with mem := h.mem.modify t fun u => { u with expire := e } } (h.refresh t e) := by
  obtain ⟨hole, hh, rfl⟩ := mem_slots.mp ht
  have hv := r.indexed.valid hole hh
  set g : TimeHeap := { h with mem := h.mem.modify (h.array hole) fun u => { u with expire := e } }
    with hg
  have hvalid : ∀ p, g.mem.Valid p ↔ h.mem.Valid p := fun p => by
    unfold Mem.Valid; rw [hg, Mem.modify_live]
  have hindex : ∀ p, (g.mem.cell p).index = (h.mem.cell p).index :=
    congrFun (Mem.field_modify_of_eq h.mem (h.array hole) HeapTimer.index
      (fun u => { u with expire := e }) rfl)
  have hexp : g.expire = Function.update h.expire (h.array hole) e :=
    Mem.field_modify h.mem (h.array hole) HeapTimer.expire fun u => { u with expire := e }
  have o : Indexed g :=
    ⟨r.indexed.size_le, fun i hi => (hvalid _).mpr (r.indexed.valid i hi), r.indexed.inj,
      fun i hi => (hindex _).trans (r.indexed.index i hi)⟩
  have d : DownOrder g.expire g.curSize 0 g.array (g.array hole) hole := by
    rw [hexp]
    exact r.ordered.raise hh (fun i hi hih heq => hih (r.indexed.inj i hi hole hh heq)) he
  have hrefresh : h.refresh (h.array hole) e = g.percolateDown hole := by
    show (g.deref (h.array hole)).percolateDown (g.mem.cell (h.array hole)).index = _
    rw [deref_of_valid ((hvalid _).mpr hv), hindex, r.indexed.index hole hh]
  obtain ⟨oi, hf⟩ := percolateDown_spec o hh
  rw [hrefresh]
  refine ⟨⟨?_, oi, orderedFrom_zero _ _ |>.mp (percolateDown_ordered d)⟩, ?_, hf⟩
  · rw [hf.capacity]; exact r.cap_pos
  · exact percolateDown_slots hh

/-! ## add_timer -/

theorem renumber_eq {h : TimeHeap} (o : Indexed h) : h.renumber = h := by
  have key : ∀ l : List ℕ, (∀ i ∈ l, i < h.curSize) → l.foldl (fun g i => { g.slot i with
      mem := (g.slot i).mem.modify (g.array i) fun t => { t with index := i } }) h = h := by
    intro l
    induction l with
    | nil => intro _; rfl
    | cons i l ih =>
      intro hl
      have hi := hl i List.mem_cons_self
      have hself : h.mem.modify (h.array i) (fun t => { t with index := i }) = h.mem :=
        Mem.modify_eq_self (o.valid i hi) (HeapTimer.index_eq_self (o.index i hi))
      rw [List.foldl_cons, slot_of_lt (hi.trans_le o.size_le), hself]
      exact ih fun j hj => hl j (List.mem_cons_of_mem i hj)
  exact key _ fun i hi => List.mem_range.mp hi

/-- The array after `resize`, with the new position counted. -/
structure Grown (h g : TimeHeap) : Prop where
  mem : g.mem = h.mem
  size : g.curSize = h.curSize + 1
  room : h.curSize < g.capacity
  array : ∀ i < h.curSize, g.array i = h.array i

theorem addTimer_grown {h : TimeHeap} (r : Rep h) {t : Ptr} (ht : t ≠ 0) :
    ∃ g, Grown h g ∧
      h.addTimer t = (addLoop g t h.curSize).1.place (addLoop g t h.curSize).2 t := by
  have hsz := r.indexed.size_le
  have hcp := r.cap_pos
  unfold addTimer
  rw [if_neg ht]
  by_cases hc : h.capacity ≤ h.curSize
  · have hre : h.resize.mem = h.mem ∧ h.resize.curSize = h.curSize := by
      unfold resize
      rw [renumber_eq r.indexed]
      exact ⟨rfl, rfl⟩
    rw [if_pos hc]
    dsimp only
    rw [hre.2]
    refine ⟨{ h.resize with curSize := h.curSize + 1 }, ⟨hre.1, rfl, ?_, ?_⟩, rfl⟩
    · show h.curSize < 2 * h.capacity
      omega
    · intro i hi
      show (if i < h.curSize then h.array i else 0) = h.array i
      rw [if_pos hi]
  · rw [if_neg hc]
    exact ⟨{ h with curSize := h.curSize + 1 },
      ⟨rfl, rfl, not_le.mp hc, fun i _ => rfl⟩, rfl⟩

theorem Grown.expire {h g : TimeHeap} (hg : Grown h g) : g.expire = h.expire := by
  unfold TimeHeap.expire
  rw [hg.mem]

theorem Grown.update {h g : TimeHeap} (hg : Grown h g) {t : Ptr} {i : ℕ} (hi : i < h.curSize) :
    Function.update g.array h.curSize t i = h.array i := by
  rw [Function.update_of_ne (by omega), hg.array i hi]

/-- The new position is a hole for the timer added. -/
theorem Grown.holed {h g : TimeHeap} (hg : Grown h g) (r : Rep h) {t : Ptr} (hv : h.mem.Valid t)
    (ht : t ∉ h.slots) : Holed g t h.curSize := by
  have hsize := hg.size
  have hroom := hg.room
  have hne : ∀ i < h.curSize, h.array i ≠ t := fun i hi he => ht (mem_slots.mpr ⟨i, hi, he⟩)
  constructor
  · omega
  · omega
  · intro i hi
    rw [hg.mem]
    by_cases hi' : i = h.curSize
    · rw [hi', Function.update_self]
      exact hv
    · rw [hg.update (by omega)]
      exact r.indexed.valid i (by omega)
  · intro i hi j hj he
    by_cases hi' : i = h.curSize <;> by_cases hj' : j = h.curSize
    · rw [hi', hj']
    · rw [hi', Function.update_self, hg.update (by omega)] at he
      exact absurd he.symm (hne j (by omega))
    · rw [hj', Function.update_self, hg.update (by omega)] at he
      exact absurd he (hne i (by omega))
    · rw [hg.update (by omega), hg.update (by omega)] at he
      exact r.indexed.inj i (by omega) j (by omega) he
  · intro i hi hih
    rw [hg.mem, hg.array i (by omega)]
    exact r.indexed.index i (by omega)

theorem Grown.upOrder {h g : TimeHeap} (hg : Grown h g) (r : Rep h) (t : Ptr) :
    UpOrder g.expire g.curSize g.array t h.curSize := by
  have hsize := hg.size
  constructor
  · intro i h0 hi hih _
    have hp := parent_lt h0
    rw [hg.expire, hg.array i (by omega), hg.array _ (by omega)]
    exact r.ordered i h0 (by omega)
  · intro i h0 hi hp
    have := parent_lt h0
    omega
  · intro _ i h0 hi hp
    have := parent_lt h0
    omega

/-- `add_timer` of a live timer outside the heap gives a heap with this timer more. -/
theorem addTimer_spec {h : TimeHeap} (r : Rep h) {t : Ptr} (hv : h.mem.Valid t)
    (ht : t ∉ h.slots) :
    Rep (h.addTimer t) ∧ (h.addTimer t).slots.Perm (t :: h.slots) ∧
      (h.addTimer t).mem.live = h.mem.live ∧ (h.addTimer t).mem.deleted = h.mem.deleted ∧
      (h.addTimer t).mem.faults = h.mem.faults ∧
      ∀ p, ((h.addTimer t).mem.cell p).data = (h.mem.cell p).data := by
  obtain ⟨g, hg, heq⟩ := addTimer_grown r hv.1
  have o := hg.holed r hv ht
  obtain ⟨ho, hf, he⟩ := addLoop_spec o
  obtain ⟨hidx, hf'⟩ := ho.finish
  have hframe := hf.trans hf'
  rw [heq]
  refine ⟨⟨?_, hidx, ?_⟩, ?_, ?_, ?_, ?_, ?_⟩
  · rw [hframe.capacity]
    exact Nat.zero_lt_of_lt hg.room
  · rw [hframe.expire, hframe.curSize, place_array, he]
    exact siftUp_ordered o.hole_lt (hg.upOrder r t)
  · have hr := siftUp_rearranges g.expire g.array t h.curSize
    unfold slots
    rw [hframe.curSize, hg.size, place_array, he]
    refine (hr.perm_range (n := h.curSize + 1) fun i hi => Nat.lt_succ_of_le hi).trans ?_
    rw [List.range_succ, List.map_append, List.map_singleton, Function.update_self]
    refine (List.perm_append_singleton _ _).trans (List.Perm.cons _ (List.Perm.of_eq ?_))
    exact List.map_congr_left fun i hi => hg.update (List.mem_range.mp hi)
  · rw [hframe.live, hg.mem]
  · rw [hframe.deleted, hg.mem]
  · rw [hframe.faults, hg.mem]
  · intro p
    rw [hframe.data, hg.mem]

/-! ## del_timer -/

theorem delTimer_cell {h : TimeHeap} {t : Ptr} (ht : t ≠ 0) :
    (h.delTimer t).mem.cell =
      Function.update h.mem.cell t { h.mem.cell t with cbFunc := 0 } := by
  unfold delTimer; rw [if_neg ht]; rfl

theorem delTimer_other {h : TimeHeap} {t p : Ptr} (hp : p ≠ t) :
    (h.delTimer t).mem.cell p = h.mem.cell p := by
  by_cases ht : t = 0
  · unfold delTimer; rw [if_pos ht]
  · rw [delTimer_cell ht, Function.update_of_ne hp]

/-- `del_timer` changes neither the positions nor the order. -/
theorem delTimer_spec (h : TimeHeap) (t : Ptr) :
    (h.delTimer t).array = h.array ∧ (h.delTimer t).curSize = h.curSize ∧
      (h.delTimer t).capacity = h.capacity ∧ (h.delTimer t).expire = h.expire ∧
      (h.delTimer t).mem.live = h.mem.live ∧ (h.delTimer t).mem.deleted = h.mem.deleted ∧
      ∀ p, ((h.delTimer t).mem.cell p).index = (h.mem.cell p).index := by
  by_cases ht : t = 0
  · unfold delTimer; rw [if_pos ht]
    exact ⟨rfl, rfl, rfl, rfl, rfl, rfl, fun _ => rfl⟩
  · have hc := delTimer_cell (h := h) ht
    have hcell : ∀ p, ((h.delTimer t).mem.cell p).expire = (h.mem.cell p).expire ∧
        ((h.delTimer t).mem.cell p).index = (h.mem.cell p).index := by
      intro p
      rw [hc]
      by_cases hp : p = t
      · rw [hp, Function.update_self]; exact ⟨rfl, rfl⟩
      · rw [Function.update_of_ne hp]; exact ⟨rfl, rfl⟩
    refine ⟨?_, ?_, ?_, funext fun p => (hcell p).1, ?_, ?_, fun p => (hcell p).2⟩ <;>
      · unfold delTimer; rw [if_neg ht]; try simp

theorem delTimer_rep {h : TimeHeap} (r : Rep h) (t : Ptr) : Rep (h.delTimer t) := by
  obtain ⟨ha, hs, hc, he, hl, -, hi⟩ := delTimer_spec h t
  have hv : ∀ p, (h.delTimer t).mem.Valid p ↔ h.mem.Valid p := fun p => by
    unfold Mem.Valid; rw [hl]
  refine ⟨by rw [hc]; exact r.cap_pos, ⟨by rw [hs, hc]; exact r.indexed.size_le, ?_, ?_, ?_⟩, ?_⟩
  · intro i hlt
    rw [hs] at hlt
    rw [ha, hv]; exact r.indexed.valid i hlt
  · rw [hs, ha]; exact r.indexed.inj
  · intro i hlt
    rw [hs] at hlt
    rw [ha, hi]; exact r.indexed.index i hlt
  · rw [hs, ha, he]; exact r.ordered

theorem delTimer_slots (h : TimeHeap) (t : Ptr) : (h.delTimer t).slots = h.slots := by
  obtain ⟨ha, hs, -⟩ := delTimer_spec h t
  unfold slots
  rw [ha, hs]

/-! ## pop_timer -/

theorem Rep.curSize_pos {h : TimeHeap} (he : h.empty = false) : 0 < h.curSize := by
  unfold empty at he
  exact Nat.pos_of_ne_zero (by simpa using he)

/-- The heap after `delete array[0]` and `--cur_size`. -/
def rootDeleted (h : TimeHeap) : TimeHeap :=
  { h with mem := h.mem.delete (h.array 0), curSize := h.curSize - 1 }

/-- The heap after the last timer is put in the place of the root. -/
def hoisted (h : TimeHeap) : TimeHeap := h.rootDeleted.place 0 (h.array (h.curSize - 1))

theorem hoisted_capacity (h : TimeHeap) : h.hoisted.capacity = h.capacity :=
  place_capacity h.rootDeleted 0 _

theorem hoisted_curSize (h : TimeHeap) : h.hoisted.curSize = h.curSize - 1 :=
  place_curSize h.rootDeleted 0 _

theorem hoisted_root (h : TimeHeap) : h.hoisted.array 0 = h.array (h.curSize - 1) := by
  unfold hoisted
  rw [place_array, Function.update_self]

theorem hoisted_array (h : TimeHeap) {i : ℕ} (hi : 0 < i) : h.hoisted.array i = h.array i := by
  unfold hoisted
  rw [place_array, Function.update_of_ne hi.ne']
  rfl

theorem hoisted_live {h : TimeHeap} (h0 : h.array 0 ≠ 0) :
    h.hoisted.mem.live = Function.update h.mem.live (h.array 0) false := by
  unfold hoisted
  rw [place_live]
  exact Mem.delete_live h0

theorem hoisted_deleted {h : TimeHeap} (h0 : h.array 0 ≠ 0) :
    h.hoisted.mem.deleted = h.mem.deleted ++ [h.array 0] := by
  unfold hoisted
  rw [place_deleted]
  exact Mem.delete_deleted h0

theorem hoisted_cell (h : TimeHeap) :
    h.hoisted.mem.cell = Function.update h.mem.cell (h.array (h.curSize - 1))
      { h.mem.cell (h.array (h.curSize - 1)) with index := 0 } := by
  unfold hoisted rootDeleted
  rw [place_cell, Mem.delete_cell]

theorem hoisted_data (h : TimeHeap) (p : Ptr) :
    (h.hoisted.mem.cell p).data = (h.mem.cell p).data := by
  unfold hoisted rootDeleted
  rw [place_data, Mem.delete_cell]

theorem popTimer_eq {h : TimeHeap} (r : Rep h) (hn : 0 < h.curSize) :
    h.popTimer = h.hoisted.percolateDown 0 := by
  have hsz := r.indexed.size_le
  have he : h.empty = false := by simp [empty]; omega
  have hlast : h.rootDeleted.slot (h.curSize - 1) = h.rootDeleted :=
    slot_of_lt (show h.curSize - 1 < h.capacity by omega)
  unfold popTimer hoisted
  rw [if_neg (by simp [he]), if_pos (r.indexed.valid 0 hn).1, slot_of_lt r.cap_pos]
  exact congrArg (fun g => (place g 0 (h.array (h.curSize - 1))).percolateDown 0) hlast

theorem hoisted_indexed {h : TimeHeap} (r : Rep h) (hn : 1 < h.curSize) :
    Indexed h.hoisted ∧ h.hoisted.mem.faults = h.mem.faults := by
  have hsz := r.indexed.size_le
  have h0 := r.indexed.valid 0 (by omega)
  have hvalid : ∀ i < h.curSize, 0 < i → h.rootDeleted.mem.Valid (h.array i) := by
    intro i hi hi0
    have hv := r.indexed.valid i hi
    refine ⟨hv.1, ?_⟩
    show (h.mem.delete (h.array 0)).live (h.array i) = true
    rw [Mem.delete_live h0.1, Function.update_of_ne]
    · exact hv.2
    · exact fun he => hi0.ne' (r.indexed.inj i hi 0 (by omega) he)
  have hvalid' : ∀ p, h.rootDeleted.mem.Valid p → h.hoisted.mem.Valid p := by
    intro p hp
    unfold hoisted Mem.Valid
    rw [place_live]
    exact hp
  -- position `i` of the new array is position `src i` of the old one
  have hsrc : ∀ i, h.hoisted.array i = h.array (if i = 0 then h.curSize - 1 else i) := by
    intro i
    by_cases hi0 : i = 0
    · rw [hi0, hoisted_root, if_pos rfl]
    · rw [hoisted_array h (Nat.pos_of_ne_zero hi0), if_neg hi0]
  refine ⟨⟨?_, ?_, ?_, ?_⟩, ?_⟩
  · rw [hoisted_curSize, hoisted_capacity]; omega
  · intro i hi
    rw [hoisted_curSize] at hi
    rw [hsrc]
    exact hvalid' _ (hvalid _ (by split_ifs <;> omega) (by split_ifs <;> omega))
  · intro i hi j hj he
    rw [hoisted_curSize] at hi hj
    rw [hsrc, hsrc] at he
    have := r.indexed.inj _ (by split_ifs <;> omega) _ (by split_ifs <;> omega) he
    split_ifs at this <;> omega
  · intro i hi
    rw [hoisted_curSize] at hi
    rw [hoisted_cell, hsrc]
    by_cases hi0 : i = 0
    · rw [if_pos hi0, Function.update_self, hi0]
    · rw [if_neg hi0, Function.update_of_ne]
      · exact r.indexed.index i (by omega)
      · intro he
        have := r.indexed.inj _ (by omega) _ (by omega) he
        omega
  · unfold hoisted
    rw [place_faults (show 0 < h.rootDeleted.capacity from r.cap_pos)
      (hvalid _ (by omega) (by omega))]
    exact Mem.delete_faults h0

theorem hoisted_slots {h : TimeHeap} (hn : 1 < h.curSize) :
    (h.array 0 :: h.hoisted.slots).Perm h.slots := by
  obtain ⟨m, hm⟩ : ∃ m, h.curSize = m + 1 := ⟨h.curSize - 1, by omega⟩
  have hl : h.hoisted.slots = SwapRemove.entries (SwapRemove.moveLast h.array m 0) m := by
    unfold slots hoisted
    rw [place_curSize, place_array, hm, Nat.add_sub_cancel]
    show (List.range (h.curSize - 1)).map _ = _
    rw [hm]
    rfl
  have hr : h.slots = SwapRemove.entries h.array (m + 1) := by
    unfold slots
    rw [hm]
    rfl
  rw [hl, hr]
  exact SwapRemove.entries_moveLast (Nat.zero_le m)

/-- A write through the pointer to a deleted timer. -/
theorem place_dangling {h : TimeHeap} {p : Ptr} (hc : 0 < h.capacity) (h0 : p ≠ 0)
    (hl : h.mem.live p = false) :
    (h.place 0 p).mem.faults = h.mem.faults ++ [.dangling p] := by
  unfold place
  rw [slot_of_lt hc]
  show (h.mem.check p).faults = _
  unfold Mem.check
  rw [if_neg h0, if_neg (by simp [hl])]
  rfl

/-- With the last timer moved to the root, the heap is in order but for the root. -/
theorem hoisted_downOrder {h : TimeHeap} (r : Rep h) :
    DownOrder h.hoisted.expire h.hoisted.curSize 0 h.hoisted.array (h.hoisted.array 0) 0 := by
  have hexp : h.hoisted.expire = h.expire := funext fun p => congrArg Prod.fst (hoisted_data h p)
  rw [hexp, hoisted_curSize]
  exact r.ordered.newRoot (fun i hi => hoisted_array h hi) (Nat.sub_le _ _) _

/-- Nothing is left: the loop does not run, and the hole is filled with the deleted timer. -/
theorem percolate_hoisted_last {h : TimeHeap} (hcap : 0 < h.capacity) (h1 : h.curSize = 1) :
    h.hoisted.percolateDown 0 = h.hoisted.place 0 (h.array 0) := by
  have hsize := hoisted_curSize h
  have hlast : h.array (h.curSize - 1) = h.array 0 := by rw [h1]
  unfold percolateDown
  rw [slot_of_lt (by rwa [hoisted_capacity]), percolateLoop, if_neg (by omega), hoisted_root, hlast]

/-- The deleted timer is written as it is moved to the root, and again as it fills the hole. -/
theorem hoisted_last_faults {h : TimeHeap} (r : Rep h) (h1 : h.curSize = 1) :
    (h.hoisted.place 0 (h.array 0)).mem.faults =
      h.mem.faults ++ [.dangling (h.array 0), .dangling (h.array 0)] := by
  have h0 := r.indexed.valid 0 (by omega)
  have hlast : h.array (h.curSize - 1) = h.array 0 := by rw [h1]
  have hdead : h.hoisted.mem.live (h.array 0) = false := by
    rw [hoisted_live h0.1, Function.update_self]
  have hhf : h.hoisted.mem.faults = h.mem.faults ++ [.dangling (h.array 0)] := by
    have hd : h.rootDeleted.mem.live (h.array 0) = false := by
      show (h.mem.delete (h.array 0)).live (h.array 0) = false
      rw [Mem.delete_live h0.1, Function.update_self]
    have hf : h.rootDeleted.mem.faults = h.mem.faults := Mem.delete_faults h0
    unfold hoisted
    rw [hlast, place_dangling (show 0 < h.rootDeleted.capacity from r.cap_pos) h0.1 hd, hf]
  rw [place_dangling (by rw [hoisted_capacity]; exact r.cap_pos) h0.1 hdead, hhf,
    List.append_assoc]
  rfl

/-- `pop_timer` removes and deletes the root. On the last timer it also writes `index` twice
through the pointer just deleted. -/
theorem popTimer_spec {h : TimeHeap} (r : Rep h) (hn : 0 < h.curSize) :
    Rep h.popTimer ∧ (h.array 0 :: h.popTimer.slots).Perm h.slots ∧
      h.popTimer.mem.live = Function.update h.mem.live (h.array 0) false ∧
      h.popTimer.mem.deleted = h.mem.deleted ++ [h.array 0] ∧
      h.popTimer.mem.faults = h.mem.faults ++
        (if h.curSize = 1 then [.dangling (h.array 0), .dangling (h.array 0)] else []) ∧
      ∀ p, (h.popTimer.mem.cell p).data = (h.mem.cell p).data := by
  have h0 := r.indexed.valid 0 hn
  have hsize := hoisted_curSize h
  have hcap : 0 < h.hoisted.capacity := by rw [hoisted_capacity]; exact r.cap_pos
  rw [popTimer_eq r hn]
  by_cases h1 : h.curSize = 1
  · have hzero : (h.hoisted.place 0 (h.array 0)).curSize = 0 := by rw [place_curSize]; omega
    have hnil : (h.hoisted.place 0 (h.array 0)).slots = [] := by unfold slots; rw [hzero]; rfl
    rw [percolate_hoisted_last r.cap_pos h1]
    refine ⟨.of_empty ?_ hzero, ?_, ?_, ?_, ?_, ?_⟩
    · rw [place_capacity]; exact hcap
    · rw [hnil]; unfold slots; rw [h1]; exact List.Perm.refl _
    · rw [place_live, hoisted_live h0.1]
    · rw [place_deleted, hoisted_deleted h0.1]
    · rw [if_pos h1, hoisted_last_faults r h1]
    · intro p; rw [place_data, hoisted_data]
  · have hn1 : 1 < h.curSize := by omega
    obtain ⟨o, hfl⟩ := hoisted_indexed r hn1
    have hh : 0 < h.hoisted.curSize := by omega
    obtain ⟨oi, hf⟩ := percolateDown_spec o hh
    have hord := percolateDown_ordered (hoisted_downOrder r)
    refine ⟨⟨?_, oi, (orderedFrom_zero _ _).mp hord⟩, ?_, ?_, ?_, ?_, ?_⟩
    · rw [hf.capacity]; exact hcap
    · exact ((percolateDown_slots hh).cons _).trans (hoisted_slots hn1)
    · rw [hf.live, hoisted_live h0.1]
    · rw [hf.deleted, hoisted_deleted h0.1]
    · rw [hf.faults, hfl, if_neg h1, List.append_nil]
    · intro p; rw [hf.data, hoisted_data]

/-! ## tick -/

/-- The callbacks of the timers `ts`, cancelled ones skipped. -/
def callsOf (h : TimeHeap) (ts : List Ptr) : List Call :=
  (ts.filter fun t => (h.mem.cell t).cbFunc ≠ 0).map fun t => (h.mem.cell t).call

theorem callsOf_congr {h h' : TimeHeap} (hd : ∀ p, (h'.mem.cell p).data = (h.mem.cell p).data)
    (ts : List Ptr) : h'.callsOf ts = h.callsOf ts := by
  have hcall : ∀ p, (h'.mem.cell p).call = (h.mem.cell p).call := fun p => congrArg Prod.snd (hd p)
  have hcb : ∀ p, (h'.mem.cell p).cbFunc = (h.mem.cell p).cbFunc := fun p =>
    congrArg Call.func (hcall p)
  unfold callsOf
  simp only [hcall, hcb]

/-- What `tick` does: the timers `due` are popped in the order of their `expire` and their callbacks
invoked; every timer left expires after `cur`. -/
structure Ticked (h : TimeHeap) (cur : ℤ) (due : List Ptr) (r : TimeHeap × List Call) : Prop where
  rep : Rep r.1
  perm : (due ++ r.1.slots).Perm h.slots
  sorted : due.Pairwise fun s t => h.expire s ≤ h.expire t
  due_le : ∀ t ∈ due, h.expire t ≤ cur
  rest_lt : ∀ t ∈ r.1.slots, cur < h.expire t
  calls : r.2 = h.callsOf due
  deleted : r.1.mem.deleted = h.mem.deleted ++ due
  live : ∀ p, r.1.mem.live p = if p ∈ due then false else h.mem.live p
  faults : ∀ f ∈ r.1.mem.faults, f ∈ h.mem.faults ∨ ∃ p ∈ due, f = .dangling p
  data : ∀ p, (r.1.mem.cell p).data = (h.mem.cell p).data

theorem Ticked.nil {h : TimeHeap} (r : Rep h) {cur : ℤ} (hlt : ∀ t ∈ h.slots, cur < h.expire t) :
    Ticked h cur [] (h, []) where
  rep := r
  perm := List.Perm.refl _
  sorted := List.Pairwise.nil
  due_le _ h := by simp at h
  rest_lt := hlt
  calls := rfl
  deleted := (List.append_nil _).symm
  live _ := by simp
  faults _ hf := Or.inl hf
  data _ := rfl

theorem tickLoop_spec {h : TimeHeap} (r : Rep h) (cur : ℤ) :
    ∃ due, Ticked h cur due (tickLoop h cur) := by
  induction h using tickLoop.induct cur with
  | case1 h he =>
    rw [tickLoop, if_pos he]
    have hnil : h.slots = [] := by
      have : h.curSize = 0 := by simpa [empty] using he
      unfold slots; rw [this]; rfl
    exact ⟨[], Ticked.nil r (by simp [hnil])⟩
  | case2 h he h0 => exact absurd h0 (r.indexed.valid 0 (Rep.curSize_pos (by simpa using he))).1
  | case3 h he h0 hlt =>
    have hn := Rep.curSize_pos (h := h) (by simpa using he)
    rw [tickLoop, if_neg he, if_neg h0, if_pos hlt,
      visit_of_valid r.cap_pos (r.indexed.valid 0 hn)]
    exact ⟨[], Ticked.nil r fun t ht => hlt.trans_le (r.root_le ht)⟩
  | case4 h he h0 hlt ih =>
    have hn := Rep.curSize_pos (h := h) (by simpa using he)
    obtain ⟨rp, hperm, hlive, hdel, hfaults, hdata⟩ := popTimer_spec r hn
    rw [visit_of_valid r.cap_pos (r.indexed.valid 0 hn), slot_of_lt rp.cap_pos] at ih
    obtain ⟨due, ht⟩ := ih rp
    have hexp : h.popTimer.expire = h.expire := funext fun p => congrArg Prod.fst (hdata p)
    have hsub : ∀ t ∈ due, t ∈ h.slots := fun t htd => hperm.subset
      (List.mem_cons_of_mem _ (ht.perm.subset (List.mem_append_left _ htd)))
    rw [tickLoop, if_neg he, if_neg h0, if_neg hlt,
      visit_of_valid r.cap_pos (r.indexed.valid 0 hn), slot_of_lt rp.cap_pos]
    refine ⟨h.array 0 :: due, ht.rep, ?_, ?_, ?_, ?_, ?_, ?_, ?_, ?_, ?_⟩
    · exact (ht.perm.cons _).trans hperm
    · refine List.pairwise_cons.mpr ⟨fun t htd => r.root_le (hsub t htd), ?_⟩
      have := ht.sorted
      rwa [hexp] at this
    · intro t htd
      rcases List.mem_cons.mp htd with rfl | htd
      · exact not_lt.mp hlt
      · rw [← hexp]; exact ht.due_le t htd
    · rw [← hexp]; exact ht.rest_lt
    · dsimp only
      rw [ht.calls, callsOf_congr hdata]
      unfold callsOf
      by_cases hcb : (h.mem.cell (h.array 0)).cbFunc = 0
      · rw [if_neg (by simpa using hcb), List.filter_cons_of_neg (by simpa using hcb)]
      · rw [if_pos hcb, List.filter_cons_of_pos (by simpa using hcb), List.map_cons]
    · rw [ht.deleted, hdel, List.append_assoc]; rfl
    · intro p
      rw [ht.live, hlive]
      by_cases hp : p = h.array 0
      · rw [hp, Function.update_self]; simp
      · rw [Function.update_of_ne hp]; simp [hp]
    · intro f hf
      rcases ht.faults f hf with hf | ⟨p, hp, rfl⟩
      · rw [hfaults] at hf
        rcases List.mem_append.mp hf with hf | hf
        · exact Or.inl hf
        · refine Or.inr ⟨h.array 0, List.mem_cons_self, ?_⟩
          split_ifs at hf <;> simp at hf
          exact hf
      · exact Or.inr ⟨p, List.mem_cons_of_mem _ hp, rfl⟩
    · intro p; rw [ht.data, hdata]

theorem tick_spec {h : TimeHeap} (r : Rep h) (cur : ℤ) : ∃ due, Ticked h cur due (h.tick cur) := by
  unfold tick
  rw [slot_of_lt r.cap_pos]
  exact tickLoop_spec r cur

end TimeHeap

end SocketTest.Timer
