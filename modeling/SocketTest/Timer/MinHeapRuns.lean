import SocketTest.Lib.Run
import SocketTest.Timer.MinHeapOps

/-!
# Runs of a `time_heap`

A run starts from one of the two constructors and applies operations in any order. `rep_of_run`
carries `Rep` through a run, and `heap_representation` reads the representation off it: the heap
holds exactly the timers that were added and not popped, each once, in heap order and with exact
back indices. The only faults on the way are accesses to a timer just deleted.
-/

namespace SocketTest.Timer

open SocketTest.Lib

namespace TimeHeap

/-! ## The constructors -/

theorem ofCapacity_rep (mem : Mem HeapTimer) {cap : ℕ} (hc : 1 ≤ cap) : Rep (ofCapacity mem cap) :=
  .of_empty hc rfl

theorem fill_succ (h : TimeHeap) (init : ℕ → Ptr) (k : ℕ) :
    h.fill init (k + 1) = (h.fill init k).place k (init k) := by
  unfold fill
  rw [List.range_succ, List.foldl_append]
  rfl

/-- The array constructor's copying loop after `k` rounds. -/
theorem fill_spec {h : TimeHeap} {init : ℕ → Ptr} {k : ℕ} (hk : k ≤ h.capacity)
    (hv : ∀ i < k, h.mem.Valid (init i)) (hinj : ∀ i < k, ∀ j < k, init i = init j → i = j) :
    Frame h (h.fill init k) ∧ ∀ i < k, (h.fill init k).array i = init i ∧
      ((h.fill init k).mem.cell (init i)).index = i := by
  induction k with
  | zero => exact ⟨Frame.refl h, fun i hi => absurd hi (Nat.not_lt_zero i)⟩
  | succ k ih =>
    obtain ⟨hf, ha⟩ := ih (by omega) (fun i hi => hv i (by omega))
      (fun i hi j hj => hinj i (by omega) j (by omega))
    rw [fill_succ]
    refine ⟨hf.trans (place_frame ?_ ?_), ?_⟩
    · rw [hf.capacity]; omega
    · rw [hf.valid]; exact hv k (by omega)
    · intro i hi
      rw [place_array, place_cell]
      by_cases hik : i = k
      · rw [hik, Function.update_self, Function.update_self]; exact ⟨rfl, rfl⟩
      · have hne : init i ≠ init k := fun he => hik (hinj i hi k (by omega) he)
        rw [Function.update_of_ne hik, Function.update_of_ne hne]
        exact ha i (by omega)

/-- Percolating from position `k` down to the root orders a heap ordered below `k`. -/
theorem heapify_spec {h : TimeHeap} (o : Indexed h) {k : ℕ} (hk : k < h.curSize)
    (ho : OrderedFrom h.expire h.curSize (k + 1) h.array) :
    Indexed (h.heapify k) ∧ Frame h (h.heapify k) ∧ (h.heapify k).slots.Perm h.slots ∧
      Ordered (h.heapify k).expire (h.heapify k).curSize (h.heapify k).array := by
  induction k generalizing h with
  | zero =>
    obtain ⟨oi, hf⟩ := percolateDown_spec o hk
    refine ⟨oi, hf, percolateDown_slots hk, (orderedFrom_zero _ _).mp ?_⟩
    refine percolateDown_ordered ⟨le_refl 0, ?_, by omega, by omega⟩
    exact fun i h0 hi _ _ hp => ho i h0 hi (Nat.pos_of_ne_zero hp)
  | succ k ih =>
    obtain ⟨oi, hf⟩ := percolateDown_spec o hk
    have hord := percolateDown_ordered (m := k + 1)
      ⟨le_refl _, fun i h0 hi hm _ hp => ho i h0 hi (by omega), fun _ hp => by
        unfold parent at hp; omega, fun _ hp => by unfold parent at hp; omega⟩
    obtain ⟨oi', hf', hp', ho'⟩ := ih oi (by rw [hf.curSize]; omega) hord
    exact ⟨oi', hf.trans hf', hp'.trans (percolateDown_slots hk), ho'⟩

theorem ofArray_spec {mem : Mem HeapTimer} {raw init : ℕ → Ptr} {size capacity : ℕ}
    {h : TimeHeap} (hc : 1 ≤ capacity) (hv : ∀ i < size, mem.Valid (init i))
    (hinj : ∀ i < size, ∀ j < size, init i = init j → i = j)
    (hh : ofArray mem raw init size capacity = some h) :
    Rep h ∧ h.slots.Perm ((List.range size).map init) ∧ h.mem.live = mem.live ∧
      h.mem.deleted = mem.deleted ∧ h.mem.faults = mem.faults ∧
      ∀ p, (h.mem.cell p).data = (mem.cell p).data := by
  unfold ofArray at hh
  by_cases hcs : capacity < size
  · rw [if_pos hcs] at hh; cases hh
  rw [if_neg hcs] at hh
  dsimp only at hh
  generalize hg : (⟨mem, fun i => if i < size then 0 else raw i, capacity, size⟩ : TimeHeap) = g
    at hh
  have hmem : g.mem = mem := by rw [← hg]
  have hsize : g.curSize = size := by rw [← hg]
  have hcap : g.capacity = capacity := by rw [← hg]
  by_cases hs : size = 0
  · rw [if_pos hs] at hh
    obtain rfl := Option.some.inj hh
    have hnil : g.slots = [] := by unfold slots; rw [hsize, hs]; rfl
    refine ⟨.of_empty (by omega) (hsize.trans hs), ?_, by rw [hmem], by rw [hmem], by rw [hmem],
      fun p => by rw [hmem]⟩
    rw [hnil, hs]
    exact List.Perm.refl _
  · rw [if_neg hs] at hh
    cases hh
    obtain ⟨hf, ha⟩ := fill_spec (h := g) (by omega) (fun i hi => hmem ▸ hv i hi) hinj
    have o : Indexed (g.fill init size) := by
      constructor
      · rw [hf.curSize, hf.capacity]; omega
      · intro i hi
        rw [hf.curSize, hsize] at hi
        rw [(ha i hi).1, hf.valid, hmem]; exact hv i hi
      · intro i hi j hj
        rw [hf.curSize, hsize] at hi hj
        rw [(ha i hi).1, (ha j hj).1]; exact hinj i hi j hj
      · intro i hi
        rw [hf.curSize, hsize] at hi
        rw [(ha i hi).1, (ha i hi).2]
    have hlast : (size - 1) / 2 < (g.fill init size).curSize := by rw [hf.curSize]; omega
    obtain ⟨oi, hf', hp, ho⟩ := heapify_spec o hlast (by
      -- no position has its parent behind the middle
      intro i h0 hi hm
      rw [hf.curSize] at hi
      unfold parent at hm
      omega)
    have hfr := hf.trans hf'
    refine ⟨⟨by rw [hfr.capacity]; omega, oi, ho⟩, hp.trans (List.Perm.of_eq ?_), ?_, ?_, ?_, ?_⟩
    · unfold slots
      rw [hf.curSize, hsize]
      exact List.map_congr_left fun i hi => (ha i (List.mem_range.mp hi)).1
    · rw [hfr.live, hmem]
    · rw [hfr.deleted, hmem]
    · rw [hfr.faults, hmem]
    · intro p; rw [hfr.data, hmem]

end TimeHeap

/-! ## Runs -/

/-- An operation on the heap: `add` allocates the timer at a free address and adds it, `refresh` is
the server's. -/
inductive HeapOp
  | add (t : Ptr) (timer : HeapTimer)
  | del (t : Ptr)
  | pop
  | tick (cur : ℤ)
  | refresh (t : Ptr) (expire : ℤ)

namespace HeapOp

/-- The timers an operation adds. -/
def added : HeapOp → List Ptr
  | add t _ => [t]
  | _ => []

/-- `add` takes a new object, `refresh` a timer of the heap and a clock that does not go back. -/
def Allowed (h : TimeHeap) : HeapOp → Prop
  | add t _ => t ≠ 0 ∧ h.mem.live t = false
  | refresh t e => t ∈ h.slots ∧ h.expire t ≤ e
  | _ => True

instance decidableAllowed (h : TimeHeap) (op : HeapOp) : Decidable (op.Allowed h) := by
  cases op <;> unfold Allowed <;> infer_instance

def exec (h : TimeHeap) : HeapOp → TimeHeap
  | add t timer => ({ h with mem := h.mem.create t timer } : TimeHeap).addTimer t
  | del t => h.delTimer t
  | pop => h.popTimer
  | tick cur => (h.tick cur).1
  | refresh t e => h.refresh t e

end HeapOp

def HeapStep (h : TimeHeap) (op : HeapOp) (h' : TimeHeap) : Prop := op.Allowed h ∧ h' = op.exec h

/-- A heap just constructed, with the timers it was given. -/
inductive HeapStart : TimeHeap → List Ptr → Prop
  | ofCapacity (mem : Mem HeapTimer) (hd : mem.deleted = []) (hf : mem.faults = []) {cap : ℕ}
      (hc : 1 ≤ cap) : HeapStart (.ofCapacity mem cap) []
  | ofArray {mem : Mem HeapTimer} {raw init : ℕ → Ptr} {size capacity : ℕ} {h : TimeHeap}
      (hd : mem.deleted = []) (hf : mem.faults = []) (hc : 1 ≤ capacity)
      (hv : ∀ i < size, mem.Valid (init i))
      (hinj : ∀ i < size, ∀ j < size, init i = init j → i = j)
      (hh : TimeHeap.ofArray mem raw init size capacity = some h) :
      HeapStart h ((List.range size).map init)

namespace TimeHeap

theorem create_rep {h : TimeHeap} (r : Rep h) {t : Ptr} (ht : t ≠ 0) (hl : h.mem.live t = false)
    (timer : HeapTimer) :
    Rep { h with mem := h.mem.create t timer } ∧ (h.mem.create t timer).Valid t ∧ t ∉ h.slots := by
  have hne : ∀ i < h.curSize, h.array i ≠ t := by
    intro i hi he
    have := (r.indexed.valid i hi).2
    rw [he, hl] at this
    cases this
  refine ⟨⟨r.cap_pos, ⟨r.indexed.size_le, ?_, r.indexed.inj, ?_⟩, ?_⟩, ?_, ?_⟩
  · intro i hi
    refine ⟨(r.indexed.valid i hi).1, ?_⟩
    show Function.update h.mem.live t true (h.array i) = true
    rw [Function.update_of_ne (hne i hi)]
    exact (r.indexed.valid i hi).2
  · intro i hi
    show (Function.update h.mem.cell t timer (h.array i)).index = i
    rw [Function.update_of_ne (hne i hi)]
    exact r.indexed.index i hi
  · intro i h0 hi
    have hp := parent_lt h0
    show (Function.update h.mem.cell t timer (h.array (parent i))).expire ≤
      (Function.update h.mem.cell t timer (h.array i)).expire
    rw [Function.update_of_ne (hne i hi), Function.update_of_ne (hne _ (hp.trans hi))]
    exact r.ordered i h0 hi
  · exact ⟨ht, by rw [Mem.create_live, Function.update_self]⟩
  · intro hm
    obtain ⟨i, hi, he⟩ := mem_slots.mp hm
    exact hne i hi he

/-- Faults that are accesses to a deleted object. -/
def OnlyDangling (fs : List Fault) : Prop := ∀ f ∈ fs, ∃ p, f = .dangling p

theorem OnlyDangling.delTimer {h : TimeHeap} (hf : OnlyDangling h.mem.faults) (t : Ptr) :
    OnlyDangling (h.delTimer t).mem.faults := by
  unfold TimeHeap.delTimer
  by_cases ht : t = 0
  · rw [if_pos ht]
    exact hf
  · rw [if_neg ht]
    intro f hmem
    change f ∈ (h.mem.check t).faults at hmem
    unfold Mem.check at hmem
    rw [if_neg ht] at hmem
    split_ifs at hmem
    · exact hf f hmem
    · rcases List.mem_append.mp hmem with hm | hm
      · exact hf f hm
      · exact ⟨t, List.mem_singleton.mp hm⟩

/-- `pop_timer` of any heap, the empty one too. -/
theorem popTimer_rep {h : TimeHeap} (r : Rep h) :
    Rep h.popTimer ∧ (h.popTimer.slots ++ h.popTimer.mem.deleted).Perm (h.slots ++ h.mem.deleted) ∧
      (OnlyDangling h.mem.faults → OnlyDangling h.popTimer.mem.faults) := by
  by_cases he : h.empty = true
  · rw [popTimer_empty he]
    exact ⟨r, .refl _, id⟩
  · obtain ⟨rp, hp, -, hdel, hfl, -⟩ := popTimer_spec r (Rep.curSize_pos (by simpa using he))
    refine ⟨rp, ?_, fun hf => ?_⟩
    · rw [hdel, ← List.append_assoc]
      exact (List.perm_append_singleton _ _).trans (hp.append_right _)
    · rw [hfl]
      intro f hmem
      rcases List.mem_append.mp hmem with hm | hm
      · exact hf f hm
      · split_ifs at hm
        · exact ⟨h.array 0, by simpa using hm⟩
        · cases hm

/-- What one operation does: the invariant stays, and the timers of the heap with those deleted
are the old ones with the one added. -/
theorem step_rep {h h' : TimeHeap} {op : HeapOp} (r : Rep h) (hs : HeapStep h op h') :
    Rep h' ∧ (h'.slots ++ h'.mem.deleted).Perm (h.slots ++ h.mem.deleted ++ op.added) ∧
      (OnlyDangling h.mem.faults → OnlyDangling h'.mem.faults) := by
  obtain ⟨hal, rfl⟩ := hs
  cases op with
  | add t timer =>
    obtain ⟨rc, hv, hnot⟩ := create_rep r hal.1 hal.2 timer
    obtain ⟨ra, hp, -, hdel, hfl, -⟩ := addTimer_spec rc hv hnot
    refine ⟨ra, ?_, fun hf => ?_⟩
    · show (_ ++ (TimeHeap.addTimer _ t).mem.deleted).Perm _
      rw [hdel]
      refine (hp.append_right _).trans ?_
      exact (List.perm_append_singleton t _).symm
    · show OnlyDangling (TimeHeap.addTimer _ t).mem.faults
      rw [hfl]; exact hf
  | del t =>
    refine ⟨delTimer_rep r t, ?_, fun hf => ?_⟩
    · show ((h.delTimer t).slots ++ (h.delTimer t).mem.deleted).Perm _
      rw [delTimer_slots, (delTimer_spec h t).2.2.2.2.2.1]
      exact List.Perm.of_eq (List.append_nil _).symm
    · exact hf.delTimer t
  | pop =>
    obtain ⟨rp, hp, hf⟩ := popTimer_rep r
    refine ⟨rp, ?_, hf⟩
    show (h.popTimer.slots ++ h.popTimer.mem.deleted).Perm (h.slots ++ h.mem.deleted ++ [])
    rw [List.append_nil]
    exact hp
  | tick cur =>
    obtain ⟨due, ht⟩ := tick_spec r cur
    refine ⟨ht.rep, ?_, fun hf f hmem => ?_⟩
    · show ((h.tick cur).1.slots ++ (h.tick cur).1.mem.deleted).Perm (h.slots ++ h.mem.deleted ++ [])
      rw [ht.deleted, List.append_nil]
      have h1 : ((h.tick cur).1.slots ++ (h.mem.deleted ++ due)).Perm
          (due ++ (h.tick cur).1.slots ++ h.mem.deleted) := by
        rw [← List.append_assoc, List.append_assoc due]
        exact List.perm_append_comm
      exact h1.trans (ht.perm.append_right _)
    · rcases ht.faults f hmem with hm | ⟨p, -, rfl⟩
      · exact hf f hm
      · exact ⟨p, rfl⟩
  | refresh t e =>
    obtain ⟨rr, hp, hfr⟩ := refresh_spec r hal.1 hal.2
    refine ⟨rr, ?_, fun hf => ?_⟩
    · show ((h.refresh t e).slots ++ (h.refresh t e).mem.deleted).Perm (h.slots ++ h.mem.deleted ++ [])
      rw [hfr.deleted, List.append_nil, Mem.modify_deleted]
      exact hp.append_right _
    · show OnlyDangling (h.refresh t e).mem.faults
      rw [hfr.faults, Mem.modify_faults (r.indexed.valid_of_mem hal.1)]
      exact hf

theorem start_rep {h : TimeHeap} {ts : List Ptr} (h0 : HeapStart h ts) :
    Rep h ∧ (h.slots ++ h.mem.deleted).Perm ts ∧ OnlyDangling h.mem.faults := by
  cases h0 with
  | ofCapacity mem hd hf hc =>
    refine ⟨ofCapacity_rep mem hc, ?_, ?_⟩
    · show ([] ++ mem.deleted).Perm []
      rw [hd]; exact List.Perm.refl _
    · show OnlyDangling mem.faults
      rw [hf]; exact fun f hm => by cases hm
  | ofArray hd hf hc hv hinj hh =>
    obtain ⟨r, hp, -, hdel, hfl, -⟩ := ofArray_spec hc hv hinj hh
    refine ⟨r, ?_, ?_⟩
    · rw [hdel, hd, List.append_nil]; exact hp
    · rw [hfl, hf]; exact fun f hm => by cases hm

/-- `Rep` holds after every run, and the run loses and duplicates no timer. -/
theorem rep_of_run {h₀ h : TimeHeap} {ts : List Ptr} {ops : List HeapOp} (h0 : HeapStart h₀ ts)
    (hr : Run HeapStep h₀ ops h) :
    Rep h ∧ (h.slots ++ h.mem.deleted).Perm (ts ++ ops.flatMap HeapOp.added) ∧
      OnlyDangling h.mem.faults := by
  refine hr.history (fun ops h => Rep h ∧
    (h.slots ++ h.mem.deleted).Perm (ts ++ ops.flatMap HeapOp.added) ∧
      OnlyDangling h.mem.faults) ?_ ?_
  · obtain ⟨r, hp, hf⟩ := start_rep h0
    exact ⟨r, by simpa using hp, hf⟩
  · rintro ops h op h' ⟨r, hp, hf⟩ hs
    obtain ⟨r', hp', hf'⟩ := step_rep r hs
    refine ⟨r', hp'.trans ?_, hf' hf⟩
    rw [List.flatMap_append, ← List.append_assoc, List.flatMap_singleton]
    exact hp.append_right _

end TimeHeap

/-- **The representation of the heap.** After every run the sizes fit, the heap holds exactly the
timers added and not yet popped (popped ones are those deleted), each once, every timer knows its
position, and every parent expires no later than its children. No operation of the run touched a
null pointer or a slot outside the array. -/
theorem heap_representation {h₀ h : TimeHeap} {ts : List Ptr} {ops : List HeapOp}
    (h0 : HeapStart h₀ ts) (hr : Run HeapStep h₀ ops h) :
    h.curSize ≤ h.capacity ∧
      (h.slots.Nodup ∧ (h.slots ++ h.mem.deleted).Perm (ts ++ ops.flatMap HeapOp.added)) ∧
      (∀ i < h.curSize, (h.mem.cell (h.array i)).index = i) ∧
      (∀ i, 0 < i → i < h.curSize →
        (h.mem.cell (h.array ((i - 1) / 2))).expire ≤ (h.mem.cell (h.array i)).expire) ∧
      ∀ f ∈ h.mem.faults, ∃ p, f = .dangling p := by
  obtain ⟨r, hp, hf⟩ := TimeHeap.rep_of_run h0 hr
  exact ⟨r.indexed.size_le, ⟨r.indexed.nodup, hp⟩, r.indexed.index, r.ordered, hf⟩

/-- The array of one slot doubles, and the refreshed root sinks below the other timer. -/
theorem heap_representation_refresh :
    let ops : List HeapOp := [.add 8 ⟨5, 1, 0, 0⟩, .add 16 ⟨3, 1, 1, 0⟩, .refresh 16 9]
    let h := ops.foldl HeapOp.exec (.ofCapacity (Mem.blank ⟨0, 0, 0, 0⟩) 1)
    (h.array 0 = 8 ∧ h.array 1 = 16) ∧ h.slots.Nodup ∧ (h.slots ++ h.mem.deleted).Perm [8, 16] := by
  intro ops h
  have hr : Run HeapStep (.ofCapacity (Mem.blank ⟨0, 0, 0, 0⟩) 1) ops h :=
    .cons ⟨by decide +kernel, rfl⟩ (.cons ⟨by decide +kernel, rfl⟩
      (.cons ⟨by decide +kernel, rfl⟩ (.nil _)))
  exact ⟨by decide +kernel, (heap_representation (.ofCapacity _ rfl rfl (by decide)) hr).2.1⟩

end SocketTest.Timer
