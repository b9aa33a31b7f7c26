import SocketTest.Timer.MinHeapRuns

/-!
# Deleted timers of a `time_heap`

Every access goes through a check of the store, so an access to a deleted timer is a fault. The heap
makes one on the way to the empty heap and no other: `pop_timer` writes the index of the last timer
after deleting it. `no_dangling_iff` says that the runs without such an access are those in which no
operation takes the last timer out.
-/

namespace SocketTest.Timer

open SocketTest.Lib

/-- `del_timer` is called on a timer that is still in the heap. -/
def HeapOp.Owned (h : TimeHeap) : HeapOp → Prop
  | del t => t ∈ h.slots
  | _ => True

/-- The operation takes the last timer out of the heap. -/
def HeapOp.Drains (h : TimeHeap) : HeapOp → Prop
  | pop => h.curSize = 1
  | tick cur => 0 < h.curSize ∧ ∀ t ∈ h.slots, h.expire t ≤ cur
  | _ => False

def OwnedStep (h : TimeHeap) (op : HeapOp) (h' : TimeHeap) : Prop := HeapStep h op h' ∧ op.Owned h

instance HeapOp.decidableOwned (h : TimeHeap) : (op : HeapOp) → Decidable (op.Owned h)
  | del t => inferInstanceAs (Decidable (t ∈ h.slots))
  | add _ _ | pop | tick _ | refresh _ _ => .isTrue trivial

namespace TimeHeap

/-- `~time_heap`: `delete array[i]` for `i < cur_size`. -/
def destroy (h : TimeHeap) : TimeHeap :=
  (List.range h.curSize).foldl (fun g i => { g.slot i with
    mem := (g.slot i).mem.delete (g.array i) }) h

/-- No timer has been accessed after its deletion, and none deleted more often than created. -/
def Safe (created : List Ptr) (h : TimeHeap) : Prop :=
  (∀ p, .dangling p ∉ h.mem.faults) ∧ ∀ p, h.mem.deleted.count p ≤ created.count p

variable {h h' : TimeHeap} {op : HeapOp}

/-! ## The destructor -/

/-- The destructor's loop after `k` rounds. -/
theorem destroy_rounds (r : Rep h) {k : ℕ} (hk : k ≤ h.curSize) :
    let g := (List.range k).foldl (fun g i => { g.slot i with
      mem := (g.slot i).mem.delete (g.array i) }) h
    g.array = h.array ∧ g.capacity = h.capacity ∧ g.mem.faults = h.mem.faults ∧
      g.mem.deleted = h.mem.deleted ++ (List.range k).map h.array ∧
      ∀ i, k ≤ i → i < h.curSize → g.mem.Valid (h.array i) := by
  induction k with
  | zero => exact ⟨rfl, rfl, rfl, (List.append_nil _).symm, fun i _ hi => r.indexed.valid i hi⟩
  | succ k ih =>
    obtain ⟨harray, hcap, hfaults, hdel, hvalid⟩ := ih (by omega)
    dsimp only at harray hcap hfaults hdel hvalid ⊢
    rw [List.range_succ, List.foldl_append, List.foldl_cons, List.foldl_nil]
    generalize (List.range k).foldl _ h = g at harray hcap hfaults hdel hvalid ⊢
    have hsize := r.indexed.size_le
    have hv := hvalid k le_rfl (by omega)
    rw [slot_of_lt (show k < g.capacity by omega), harray]
    refine ⟨rfl, hcap, ?_, ?_, ?_⟩
    · exact (Mem.delete_faults hv).trans hfaults
    · show (g.mem.delete (h.array k)).deleted = _
      rw [Mem.delete_deleted hv.1, hdel, List.map_append, List.append_assoc]
      rfl
    · intro i hik hi
      rw [Mem.delete_valid hv.1]
      refine ⟨hvalid i (by omega) hi, fun he => ?_⟩
      have := r.indexed.inj i hi k (by omega) he
      omega

/-- The destructor deletes every timer of the heap, each once. -/
theorem destroy_spec (r : Rep h) :
    h.destroy.mem.faults = h.mem.faults ∧ h.destroy.mem.deleted = h.mem.deleted ++ h.slots := by
  obtain ⟨-, -, hfaults, hdel, -⟩ := destroy_rounds r le_rfl
  exact ⟨hfaults, hdel⟩

/-! ## Accesses to deleted timers -/

/-- The new faults are accesses to deleted timers, and there are some exactly in the case `P`. -/
def Dangles (fs fs' : List Fault) (P : Prop) : Prop :=
  ∃ ps : List Ptr, fs' = fs ++ ps.map .dangling ∧ (ps ≠ [] ↔ P)

theorem Dangles.of_eq {fs fs' : List Fault} {P : Prop} (he : fs' = fs) (hP : ¬ P) :
    Dangles fs fs' P := ⟨[], by rw [he]; simp, by simp [hP]⟩

theorem Dangles.iff {fs fs' : List Fault} {P : Prop} (hd : Dangles fs fs' P) :
    (∀ p, .dangling p ∉ fs') ↔ (∀ p, .dangling p ∉ fs) ∧ ¬ P := by
  obtain ⟨ps, rfl, hP⟩ := hd
  rw [← hP]
  cases ps with
  | nil => simp
  | cons p ps =>
    apply iff_of_false
    · intro hall
      exact hall p (by simp)
    · simp

theorem popTimer_dangles (r : Rep h) (hn : 0 < h.curSize) :
    Dangles h.mem.faults h.popTimer.mem.faults (h.curSize = 1) := by
  obtain ⟨-, -, -, -, hfaults, -⟩ := popTimer_spec r hn
  rw [hfaults]
  by_cases h1 : h.curSize = 1
  · rw [if_pos h1]
    exact ⟨[h.array 0, h.array 0], rfl, by simp [h1]⟩
  · rw [if_neg h1]
    exact .of_eq (List.append_nil _) h1

theorem tickLoop_curSize_le (r : Rep h) (cur : ℤ) : (tickLoop h cur).1.curSize ≤ h.curSize := by
  obtain ⟨due, ht⟩ := tickLoop_spec r cur
  have hlen := ht.perm.length_eq
  rw [List.length_append, slots_length, slots_length] at hlen
  omega

theorem tickLoop_dangles (r : Rep h) (cur : ℤ) :
    Dangles h.mem.faults (tickLoop h cur).1.mem.faults
      (0 < h.curSize ∧ (tickLoop h cur).1.curSize = 0) := by
  induction h using tickLoop.induct cur with
  | case1 h he =>
    rw [tickLoop, if_pos he]
    exact .of_eq rfl (by dsimp only; omega)
  | case2 h he h0 => exact absurd h0 (r.indexed.valid 0 (Rep.curSize_pos (by simpa using he))).1
  | case3 h he h0 hlt =>
    have hn := Rep.curSize_pos (h := h) (by simpa using he)
    rw [tickLoop, if_neg he, if_neg h0, if_pos hlt,
      visit_of_valid r.cap_pos (r.indexed.valid 0 hn)]
    exact .of_eq rfl (by dsimp only; omega)
  | case4 h he h0 hlt ih =>
    have hn := Rep.curSize_pos (h := h) (by simpa using he)
    obtain ⟨rp, -⟩ := popTimer_spec r hn
    rw [visit_of_valid r.cap_pos (r.indexed.valid 0 hn), slot_of_lt rp.cap_pos] at ih
    rw [tickLoop, if_neg he, if_neg h0, if_neg hlt,
      visit_of_valid r.cap_pos (r.indexed.valid 0 hn), slot_of_lt rp.cap_pos]
    dsimp only
    obtain ⟨ps, hps, hpop⟩ := popTimer_dangles r hn
    obtain ⟨qs, hqs, hrest⟩ := ih rp
    refine ⟨ps ++ qs, by rw [hqs, hps, List.map_append, List.append_assoc], ?_⟩
    have hsize : h.popTimer.curSize = h.curSize - 1 := popTimer_curSize h0
    have hle := tickLoop_curSize_le rp cur
    rw [ne_eq, List.append_eq_nil_iff, not_and_or, ← ne_eq, ← ne_eq, hpop, hrest]
    omega

/-- A tick empties the heap when every timer is due. -/
theorem tick_curSize_eq_zero (r : Rep h) (cur : ℤ) :
    (h.tick cur).1.curSize = 0 ↔ ∀ t ∈ h.slots, h.expire t ≤ cur := by
  obtain ⟨due, ht⟩ := tick_spec r cur
  rw [← slots_eq_nil]
  constructor
  · intro hnil t htm
    have hperm := ht.perm
    rw [hnil, List.append_nil] at hperm
    exact ht.due_le t (hperm.symm.subset htm)
  · intro hle
    rw [List.eq_nil_iff_forall_not_mem]
    intro t htm
    have hlt := ht.rest_lt t htm
    have := hle t (ht.perm.subset (List.mem_append_right _ htm))
    omega

/-- An operation accesses a deleted timer exactly when it takes the last timer out. -/
theorem step_dangles (r : Rep h) (hs : OwnedStep h op h') :
    Dangles h.mem.faults h'.mem.faults (op.Drains h) := by
  obtain ⟨⟨hal, rfl⟩, hown⟩ := hs
  cases op with
  | add t timer =>
    obtain ⟨rc, hv, hnot⟩ := create_rep r hal.1 hal.2 timer
    obtain ⟨-, -, -, -, hfaults, -⟩ := addTimer_spec rc hv hnot
    exact .of_eq hfaults id
  | del t =>
    have hv := r.indexed.valid_of_mem hown
    have hfaults : (h.delTimer t).mem.faults = h.mem.faults := by
      unfold delTimer
      rw [if_neg hv.1]
      exact Mem.modify_faults hv _
    exact .of_eq hfaults id
  | pop =>
    show Dangles _ h.popTimer.mem.faults (h.curSize = 1)
    by_cases he : h.empty = true
    · have h0 : h.curSize = 0 := by simpa [empty] using he
      rw [popTimer_empty he]
      exact .of_eq rfl (by omega)
    · exact popTimer_dangles r (Rep.curSize_pos (by simpa using he))
  | tick cur =>
    show Dangles _ (h.tick cur).1.mem.faults _
    have hd := tickLoop_dangles r cur
    rw [HeapOp.Drains, ← tick_curSize_eq_zero r]
    unfold tick
    rwa [slot_of_lt r.cap_pos]
  | refresh t e =>
    obtain ⟨-, -, hfr⟩ := refresh_spec r hal.1 hal.2
    have hfaults : (h.refresh t e).mem.faults = h.mem.faults :=
      hfr.faults.trans (Mem.modify_faults (r.indexed.valid_of_mem hal.1) _)
    exact .of_eq hfaults id

theorem start_clean {ts : List Ptr} (h0 : HeapStart h ts) : ∀ p, .dangling p ∉ h.mem.faults := by
  have hnil : h.mem.faults = [] := by
    cases h0 with
    | ofCapacity mem hd hf hc => exact hf
    | ofArray hd hf hc hv hinj hh =>
      obtain ⟨-, -, -, -, hfaults, -⟩ := ofArray_spec hc hv hinj hh
      rw [hfaults, hf]
  intro p
  rw [hnil]
  exact List.not_mem_nil

/-- No timer is deleted more often than it has been created. -/
theorem destroy_count {h₀ : TimeHeap} {ts : List Ptr} {ops : List HeapOp} (h0 : HeapStart h₀ ts)
    (hr : Run HeapStep h₀ ops h) (p : Ptr) :
    h.destroy.mem.deleted.count p = (ts ++ ops.flatMap HeapOp.added).count p := by
  obtain ⟨r, hp, -⟩ := rep_of_run h0 hr
  rw [(destroy_spec r).2]
  exact (List.perm_append_comm.trans hp).count_eq p

end TimeHeap

/-- **Deleted timers.** A run of the heap, with the destructor at its end, accesses no deleted timer
and deletes none twice exactly when no operation of it takes the last timer out of the heap. -/
theorem no_dangling_iff {h₀ h : TimeHeap} {ts : List Ptr} {ops : List HeapOp}
    (h0 : HeapStart h₀ ts) (hr : Run OwnedStep h₀ ops h) :
    TimeHeap.Safe (ts ++ ops.flatMap HeapOp.added) h.destroy ↔
      Run (fun h op h' => OwnedStep h op h' ∧ ¬ op.Drains h) h₀ ops h := by
  have hstep : Run HeapStep h₀ ops h := hr.mono fun _ _ _ hs => hs.1
  obtain ⟨r₀, -⟩ := TimeHeap.start_rep h0
  obtain ⟨r, -⟩ := TimeHeap.rep_of_run h0 hstep
  have hclean := hr.clean_iff TimeHeap.Rep (fun h => ∀ p, .dangling p ∉ h.mem.faults)
    (fun h op => ¬ op.Drains h) ?_ ?_ ?_ r₀
  · rw [TimeHeap.Safe, (TimeHeap.destroy_spec r).1, hclean,
      and_iff_right (TimeHeap.start_clean h0)]
    exact and_iff_left fun p => (TimeHeap.destroy_count h0 hstep p).le
  · rintro s op t t' ⟨⟨-, rfl⟩, -⟩ ⟨⟨-, rfl⟩, -⟩
    rfl
  · intro s op t r hs
    exact (TimeHeap.step_rep r hs.1).1
  · intro s op t r hs
    exact (TimeHeap.step_dangles r hs).iff

/-- Of two timers one is popped; the other is left to the destructor. -/
theorem no_dangling_iff_two :
    let ops : List HeapOp := [.add 8 ⟨5, 1, 0, 0⟩, .add 16 ⟨3, 1, 1, 0⟩, .pop]
    let h := ops.foldl HeapOp.exec (.ofCapacity (Mem.blank ⟨0, 0, 0, 0⟩) 1)
    TimeHeap.Safe [8, 16] h.destroy ↔ Run (fun h op h' => OwnedStep h op h' ∧ ¬ op.Drains h)
      (.ofCapacity (Mem.blank ⟨0, 0, 0, 0⟩) 1) ops h := by
  intro ops h
  have hr : Run OwnedStep (.ofCapacity (Mem.blank ⟨0, 0, 0, 0⟩) 1) ops h :=
    .cons ⟨⟨by decide +kernel, rfl⟩, by decide +kernel⟩
      (.cons ⟨⟨by decide +kernel, rfl⟩, by decide +kernel⟩
        (.cons ⟨⟨by decide +kernel, rfl⟩, by decide +kernel⟩ (.nil _)))
  exact no_dangling_iff (.ofCapacity _ rfl rfl (by decide)) hr

/-- The only timer of a heap is popped: `pop_timer` writes its index after deleting it. -/
theorem popped_last : ¬ ∀ (h₀ h : TimeHeap) (ts : List Ptr) (ops : List HeapOp), HeapStart h₀ ts →
    Run OwnedStep h₀ ops h → TimeHeap.Safe (ts ++ ops.flatMap HeapOp.added) h.destroy := by
  intro hall
  let ops : List HeapOp := [.add 8 ⟨5, 1, 0, 0⟩, .pop]
  have hr : Run OwnedStep (.ofCapacity (Mem.blank ⟨0, 0, 0, 0⟩) 1) ops
      (ops.foldl HeapOp.exec (.ofCapacity (Mem.blank ⟨0, 0, 0, 0⟩) 1)) :=
    .cons ⟨⟨by decide +kernel, rfl⟩, by decide +kernel⟩
      (.cons ⟨⟨by decide +kernel, rfl⟩, by decide +kernel⟩ (.nil _))
  have hsafe := hall _ _ _ _ (.ofCapacity _ rfl rfl (by decide)) hr
  exact absurd (by decide +kernel) (hsafe.1 8)

end SocketTest.Timer
