import SocketTest.Timer.MinHeapRuns

/-!
# The timers of a `time_heap` that can still fire

`del_timer` leaves a cancelled timer in the heap with a null callback. `active` are the others; for
its clients the heap is the collection of these, and the theorems here say what each operation does
to them.
-/

namespace SocketTest.Timer

open SocketTest.Lib

namespace TimeHeap

/-- The timers of the heap that are not cancelled. -/
def active (h : TimeHeap) : List Ptr := h.slots.filter fun t => (h.mem.cell t).cbFunc ≠ 0

theorem mem_active {h : TimeHeap} {t : Ptr} :
    t ∈ h.active ↔ t ∈ h.slots ∧ (h.mem.cell t).cbFunc ≠ 0 := by
  simp [active]

theorem cbFunc_eq {h h' : TimeHeap} {p q : Ptr} (hd : (h'.mem.cell p).data = (h.mem.cell q).data) :
    (h'.mem.cell p).cbFunc = (h.mem.cell q).cbFunc :=
  congrArg (fun d => d.2.func) hd

variable {h : TimeHeap} {t : Ptr}

theorem Rep.active_nodup (r : Rep h) : h.active.Nodup := r.indexed.nodup.filter _

/-- A new timer with a callback. -/
theorem add_active (r : Rep h) {timer : HeapTimer} (ha : (HeapOp.add t timer).Allowed h)
    (hcb : timer.cbFunc ≠ 0) :
    Rep (HeapOp.exec h (.add t timer)) ∧ (HeapOp.exec h (.add t timer)).active.Perm (t :: h.active) ∧
      t ∉ h.slots ∧
      (HeapOp.exec h (.add t timer)).mem.live = Function.update h.mem.live t true ∧
      ∀ p, ((HeapOp.exec h (.add t timer)).mem.cell p).data =
        if p = t then timer.data else (h.mem.cell p).data := by
  obtain ⟨rc, hv, hnot⟩ := create_rep r ha.1 ha.2 timer
  obtain ⟨ra, hp, hl, -, -, hd⟩ := addTimer_spec rc hv hnot
  have hdata : ∀ p, ((HeapOp.exec h (.add t timer)).mem.cell p).data =
      if p = t then timer.data else (h.mem.cell p).data := by
    intro p
    show ((TimeHeap.addTimer _ t).mem.cell p).data = _
    rw [hd, Mem.create_cell]
    by_cases hpt : p = t
    · rw [if_pos hpt, hpt, Function.update_self]
    · rw [if_neg hpt, Function.update_of_ne hpt]
  refine ⟨ra, ?_, hnot, hl, hdata⟩
  unfold active
  refine (hp.filter _).trans ?_
  have ht : ((HeapOp.exec h (.add t timer)).mem.cell t).cbFunc ≠ 0 := by
    have := hdata t
    rw [if_pos rfl] at this
    rw [show ((HeapOp.exec h (.add t timer)).mem.cell t).cbFunc = timer.cbFunc from
      congrArg (fun d => d.2.func) this]
    exact hcb
  rw [List.filter_cons_of_pos (by simpa using ht)]
  refine List.Perm.cons t (List.Perm.of_eq (List.filter_congr fun p hpm => ?_))
  have hpt : p ≠ t := fun he => hnot (he ▸ hpm)
  have := hdata p
  rw [if_neg hpt] at this
  rw [cbFunc_eq this]

theorem del_active (r : Rep h) (ht : t ≠ 0) :
    Rep (h.delTimer t) ∧ (h.delTimer t).active = h.active.filter (fun p => p ≠ t) ∧
      (h.delTimer t).mem.live = h.mem.live ∧
      ∀ p, p ≠ t → ((h.delTimer t).mem.cell p).data = (h.mem.cell p).data := by
  refine ⟨delTimer_rep r t, ?_, (delTimer_spec h t).2.2.2.2.1, fun p hp => by
    rw [delTimer_other hp]⟩
  unfold active
  rw [delTimer_slots, List.filter_filter]
  refine List.filter_congr fun p _ => ?_
  by_cases hp : p = t
  · simp [hp, delTimer_cell ht]
  · simp [hp, delTimer_other hp]

theorem refresh_active (r : Rep h) {e : ℤ} (ht : t ∈ h.slots) (he : h.expire t ≤ e) :
    Rep (h.refresh t e) ∧ (h.refresh t e).active.Perm h.active ∧
      (h.refresh t e).mem.live = h.mem.live ∧
      ∀ p, ((h.refresh t e).mem.cell p).data =
        if p = t then (e, (h.mem.cell t).call) else (h.mem.cell p).data := by
  obtain ⟨rr, hp, hfr⟩ := refresh_spec r ht he
  have hdata : ∀ p, ((h.refresh t e).mem.cell p).data =
      if p = t then (e, (h.mem.cell t).call) else (h.mem.cell p).data := by
    intro p
    rw [hfr.data]
    show ((h.mem.modify t fun u => { u with expire := e }).cell p).data = _
    rw [Mem.modify_cell]
    by_cases hpt : p = t
    · rw [if_pos hpt, hpt, Function.update_self]; rfl
    · rw [if_neg hpt, Function.update_of_ne hpt]
  refine ⟨rr, ?_, hfr.live.trans (Mem.modify_live _ _ _), hdata⟩
  unfold active
  refine (hp.filter _).trans (List.Perm.of_eq (List.filter_congr fun p _ => ?_))
  have := hdata p
  by_cases hpt : p = t
  · rw [if_pos hpt] at this
    rw [show ((h.refresh t e).mem.cell p).cbFunc = (h.mem.cell t).cbFunc from
      congrArg (fun d => d.2.func) this, hpt]
  · rw [if_neg hpt] at this
    rw [cbFunc_eq this]

/-- A tick fires exactly the active timers that are due, in the order of their `expire`. -/
theorem tick_active (r : Rep h) (cur : ℤ) :
    ∃ due : List Ptr, Rep (h.tick cur).1 ∧
      due.Perm (h.active.filter fun p => decide (h.expire p ≤ cur)) ∧
      due.Pairwise (fun p q => h.expire p ≤ h.expire q) ∧
      (h.tick cur).2 = due.map (fun p => (h.mem.cell p).call) ∧
      (h.tick cur).1.active.Perm (h.active.filter fun p => decide (cur < h.expire p)) ∧
      (∀ p, ((h.tick cur).1.mem.cell p).data = (h.mem.cell p).data) ∧
      ∀ p, (h.tick cur).1.mem.live p = true → h.mem.live p = true := by
  obtain ⟨popped, ht⟩ := tick_spec r cur
  set due := popped.filter fun t => (h.mem.cell t).cbFunc ≠ 0 with hdue
  have hrest : (h.tick cur).1.active =
      (h.tick cur).1.slots.filter fun t => (h.mem.cell t).cbFunc ≠ 0 := by
    unfold active
    exact List.filter_congr fun p _ => by rw [cbFunc_eq (ht.data p)]
  have hperm : (due ++ (h.tick cur).1.active).Perm h.active := by
    rw [hrest, hdue, ← List.filter_append]
    exact ht.perm.filter _
  have hle : ∀ p ∈ due, h.expire p ≤ cur := fun p hp => ht.due_le p (List.mem_of_mem_filter hp)
  have hlt : ∀ p ∈ (h.tick cur).1.active, cur < h.expire p := fun p hp =>
    ht.rest_lt p (mem_active.mp hp).1
  refine ⟨due, ht.rep, ?_, ht.sorted.filter _, ht.calls, ?_, ht.data, ?_⟩
  · refine List.Perm.trans (List.Perm.of_eq ?_) (hperm.filter _)
    rw [List.filter_append, List.filter_eq_self.mpr fun p hp => by simpa using hle p hp,
      List.filter_eq_nil_iff.mpr fun p hp => by simpa using hlt p hp, List.append_nil]
  · refine List.Perm.trans (List.Perm.of_eq ?_) (hperm.filter _)
    rw [List.filter_append, List.filter_eq_nil_iff.mpr fun p hp => by simpa using hle p hp,
      List.filter_eq_self.mpr fun p hp => by simpa using hlt p hp, List.nil_append]
  · intro p hp
    rw [ht.live] at hp
    split_ifs at hp
    exact hp

end TimeHeap

end SocketTest.Timer
