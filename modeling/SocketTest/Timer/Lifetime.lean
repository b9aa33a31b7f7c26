import SocketTest.Lib.Ownership
import SocketTest.Timer.Countdown
import SocketTest.Timer.ListRuns

/-!
# The life of a timer container

The destructors of `sort_timer_lst` and of `time_wheel` walk what is left and delete it. No operation
but the `new` of a timer allocates, so over the whole life of a container, from the constructor to
the destructor, `Mem.made` counts the deletions.
-/

namespace SocketTest.Timer

open SocketTest.Lib

/-! ## The sorted list -/

namespace SortTimerLst

/-- The `while(tmp)` loop of `~sort_timer_lst`. -/
def destroyLoop (fuel : ℕ) (l : SortTimerLst) (tmp : Ptr) : Option SortTimerLst :=
  match fuel with
  | 0 => none
  | fuel + 1 =>
    if tmp = 0 then some l
    else
      let l₁ : SortTimerLst := { l.deref tmp with head := l.next tmp }
      destroyLoop fuel (l₁.delete tmp) (l₁.delete tmp).head

/-- `~sort_timer_lst`. -/
def destroy (fuel : ℕ) (l : SortTimerLst) : Option SortTimerLst := destroyLoop fuel l l.head

theorem destroyLoop_eq {l : SortTimerLst} {xs : List Ptr} {tmp : Ptr} {fuel : ℕ}
    (hs : Seg l.next tmp xs 0) (h0 : ∀ x ∈ xs, x ≠ 0) (hh : l.head = tmp) (hf : xs.length < fuel) :
    destroyLoop fuel l tmp = some { l with mem := l.mem.freeAll xs, head := 0 } := by
  induction xs generalizing l tmp fuel with
  | nil =>
    obtain ⟨fuel, rfl⟩ := Nat.exists_eq_add_of_lt hf
    obtain rfl : tmp = 0 := hs
    rw [destroyLoop, if_pos rfl, ← hh]
    rfl
  | cons x xs ih =>
    obtain ⟨fuel, rfl⟩ : ∃ k, fuel = k + 1 := ⟨fuel - 1, by omega⟩
    obtain ⟨rfl, hs⟩ := hs
    rw [destroyLoop, if_neg (h0 tmp List.mem_cons_self)]
    have hnext : (SortTimerLst.delete { l.deref tmp with head := l.next tmp } tmp).next = l.next := by
      funext q
      show (((l.mem.check tmp).delete tmp).cell q).next = _
      rw [Mem.delete_cell, Mem.check_cell]
      rfl
    refine (ih (hnext.symm ▸ hs) (fun y hy => h0 y (List.mem_cons_of_mem _ hy)) rfl ?_).trans rfl
    simpa using hf

section Conserves

variable {fuel : ℕ} {l l' : SortTimerLst} {calls : List Call}

theorem insertFrom_conserves {timer prev : Ptr} (h : insertFrom fuel l timer prev = some l') :
    l.mem.Conserves l'.mem := by
  induction fuel generalizing l prev with
  | zero => cases h
  | succ fuel ih =>
    rw [insertFrom] at h
    have hd := Mem.check_conserves l.mem prev
    split_ifs at h with h0 hlt
    · cases h
      exact ((hd.trans (Mem.modify_conserves _ _ _)).trans (Mem.modify_conserves _ _ _)).trans
        (Mem.modify_conserves _ _ _)
    · cases h
      exact (((((hd.trans (Mem.check_conserves _ _)).trans (Mem.check_conserves _ _)).trans
        (Mem.modify_conserves _ _ _)).trans (Mem.modify_conserves _ _ _)).trans
        (Mem.modify_conserves _ _ _)).trans (Mem.modify_conserves _ _ _)
    · exact ((hd.trans (Mem.check_conserves _ _)).trans (Mem.check_conserves _ _)).trans (ih h)

theorem addTimer_conserves {timer : Ptr} (h : addTimer fuel l timer = some l') :
    l.mem.Conserves l'.mem := by
  unfold addTimer at h
  have hd := (Mem.check_conserves l.mem timer).trans (Mem.check_conserves _ l.head)
  split_ifs at h with h0 hh hlt
  · cases h
    exact .refl _
  · cases h
    exact .refl _
  · cases h
    exact (hd.trans (Mem.modify_conserves _ _ _)).trans (Mem.modify_conserves _ _ _)
  · exact hd.trans (insertFrom_conserves h)

theorem adjustTimer_conserves {timer : Ptr} (h : adjustTimer fuel l timer = some l') :
    l.mem.Conserves l'.mem := by
  unfold adjustTimer at h
  have hd := Mem.check_conserves l.mem timer
  by_cases h0 : timer = 0
  · rw [if_pos h0] at h
    cases h
    exact .refl _
  rw [if_neg h0] at h
  by_cases hn : l.next timer = 0
  · rw [if_pos hn] at h
    cases h
    exact hd
  rw [if_neg hn] at h
  have hd' := hd.trans (Mem.check_conserves _ (l.next timer))
  by_cases hlt : l.expire timer < l.expire (l.next timer)
  · rw [if_pos hlt] at h
    cases h
    exact hd'
  rw [if_neg hlt] at h
  by_cases hh : timer = l.head
  · rw [if_pos hh] at h
    exact (((hd'.trans (Mem.check_conserves _ _)).trans (Mem.modify_conserves _ _ _)).trans
      (Mem.modify_conserves _ _ _)).trans (insertFrom_conserves h)
  · rw [if_neg hh] at h
    exact ((hd'.trans (Mem.modify_conserves _ _ _)).trans (Mem.modify_conserves _ _ _)).trans
      (insertFrom_conserves h)

theorem delTimer_conserves (l : SortTimerLst) (timer : Ptr) :
    l.mem.Conserves (l.delTimer timer).mem := by
  unfold delTimer
  split_ifs with h0 hb hh ht
  · exact .refl _
  · exact Mem.delete_conserves _ _
  · exact ((Mem.check_conserves _ _).trans (Mem.modify_conserves _ _ _)).trans
      (Mem.delete_conserves _ _)
  · exact ((Mem.check_conserves _ _).trans (Mem.modify_conserves _ _ _)).trans
      (Mem.delete_conserves _ _)
  · exact (((Mem.check_conserves _ _).trans (Mem.modify_conserves _ _ _)).trans
      (Mem.modify_conserves _ _ _)).trans (Mem.delete_conserves _ _)

theorem tickLoop_conserves {cur : ℤ} {tmp : Ptr} (h : tickLoop fuel l cur tmp = some (l', calls)) :
    l.mem.Conserves l'.mem := by
  induction fuel generalizing l tmp calls with
  | zero => cases h
  | succ fuel ih =>
    rw [tickLoop] at h
    have hd := Mem.check_conserves l.mem tmp
    by_cases h0 : tmp = 0
    · rw [if_pos h0] at h
      cases h
      exact .refl _
    rw [if_neg h0] at h
    by_cases hlt : cur < l.expire tmp
    · rw [if_pos hlt] at h
      cases h
      exact hd
    rw [if_neg hlt] at h
    obtain ⟨⟨l₁, calls₁⟩, hr, hl'⟩ := Option.map_eq_some_iff.mp h
    obtain ⟨rfl, -⟩ := Prod.mk.inj hl'
    refine Mem.Conserves.trans ?_ (ih hr)
    refine Mem.Conserves.trans ?_ (Mem.delete_conserves _ _)
    split_ifs
    · exact hd.trans (Mem.fault_conserves _ _)
    · exact (hd.trans (Mem.fault_conserves _ _)).trans (Mem.modify_conserves _ _ _)
    · exact hd
    · exact hd.trans (Mem.modify_conserves _ _ _)

end Conserves

end SortTimerLst

/-- The objects an operation allocates. -/
def ListOp.added : ListOp → List Ptr
  | add t _ _ _ => [t]
  | _ => []

namespace SortTimerLst

/-- An operation that does not fault deletes what it takes out, and nothing twice. -/
theorem exec_made {mem₀ : Mem UtilTimer} {s : Schedule} {l l' : SortTimerLst} {xs : List Ptr}
    {op : ListOp} {fuel : ℕ} {calls : List Call} (R : Refines mem₀ s l xs) (ha : op.Allowed mem₀ s)
    (h : exec fuel l op = some (l', calls)) (hf : l'.mem.faults = []) (p : Ptr) :
    l'.mem.made p = l.mem.made p + op.added.count p := by
  cases op with
  | add t e cb ud =>
    obtain ⟨⟨-, hm0, hnone⟩, -⟩ := ha
    have hdead : l.mem.live t = false := by
      have := (R.live t).not
      rw [hnone, hm0] at this
      simpa using this
    obtain ⟨l₁, hl₁, he⟩ := Option.map_eq_some_iff.mp h
    obtain ⟨rfl, -⟩ := Prod.mk.inj he
    rw [(addTimer_conserves hl₁).made_eq hf, Mem.made_create _ hdead, ListOp.added,
      List.count_singleton]
    by_cases hp : p = t
    · rw [hp, Function.update_self, if_pos (beq_self_eq_true t)]
    · rw [Function.update_of_ne hp, if_neg (by simpa using Ne.symm hp)]
      rfl
  | adjust t e =>
    obtain ⟨l₁, hl₁, he⟩ := Option.map_eq_some_iff.mp h
    obtain ⟨rfl, -⟩ := Prod.mk.inj he
    exact congrFun (((Mem.modify_conserves _ _ _).trans (adjustTimer_conserves hl₁)).made_eq hf) p
  | del t =>
    obtain ⟨rfl, -⟩ := Prod.mk.inj (Option.some.inj h)
    exact congrFun ((delTimer_conserves l t).made_eq hf) p
  | tick cur =>
    have hc : l.mem.Conserves l'.mem := by
      change tick fuel l cur = _ at h
      unfold tick at h
      split_ifs at h with hh
      · cases h
        exact .refl _
      · exact tickLoop_conserves h
    exact congrFun (hc.made_eq hf) p

theorem run_made {mem₀ : Mem UtilTimer} {s s' : Schedule} {ops : List ListOp}
    (hr : Run (ScheduleStep mem₀) s ops s') {l : SortTimerLst} {xs : List Ptr} {fuel : ℕ}
    (R : Refines mem₀ s l xs) (hf : xs.length + ops.length < fuel) :
    ∃ l' xs' calls, execAll fuel l ops = some (l', calls) ∧ Refines mem₀ s' l' xs' ∧
      xs'.length ≤ xs.length + ops.length ∧
      ∀ p, l'.mem.made p = l.mem.made p + (ops.flatMap ListOp.added).count p := by
  induction hr generalizing l xs with
  | nil s => exact ⟨l, xs, [], rfl, R, le_rfl, fun p => by simp⟩
  | @cons s t u op ops hs _ ih =>
    obtain ⟨ha, rfl⟩ := hs
    rw [List.length_cons] at hf ⊢
    obtain ⟨l₁, xs₁, calls₁, hl₁, R₁, hlen⟩ := exec_refines R ha (by omega : xs.length < fuel)
    obtain ⟨l', xs', calls, hl', R', hlen', hm⟩ := ih R₁ (by omega)
    refine ⟨l', xs', calls₁ :: calls, ?_, R', by omega, fun p => ?_⟩
    · rw [execAll, hl₁, Option.bind_some, hl']
      rfl
    · rw [hm, exec_made R ha hl₁ R₁.linked.faults, List.flatMap_cons, List.count_append,
        Nat.add_assoc]

end SortTimerLst

/-- **Every timer is deleted once.** A list that is built, used and destroyed ends without a fault.
What was there before is still there, nothing else is, and each address was deleted as often as a
timer was allocated at it: the list leaks nothing and frees nothing twice, whether a timer was
deleted, has expired or was left to the destructor. -/
theorem list_frees_all {mem₀ : Mem UtilTimer} (hf : mem₀.faults = []) {s : Schedule}
    {ops : List ListOp} (hr : Run (ScheduleStep mem₀) .empty ops s) {fuel : ℕ}
    (hfuel : ops.length < fuel) :
    ∃ l calls l', SortTimerLst.execAll fuel (.init mem₀) ops = some (l, calls) ∧
      l.destroy fuel = some l' ∧ l'.mem.faults = [] ∧ l'.mem.live = mem₀.live ∧
      ∀ p, l'.mem.deleted.count p =
        mem₀.deleted.count p + (ops.flatMap ListOp.added).count p := by
  obtain ⟨l, xs, calls, hl, R, hlen, hm⟩ :=
    SortTimerLst.run_made hr (.init hf) (by simpa using hfuel)
  have hx : xs.length < fuel := lt_of_le_of_lt (by simpa using hlen) hfuel
  have hdes := SortTimerLst.destroyLoop_eq R.linked.links.forward (fun x hx => R.linked.ne_zero hx)
    rfl hx
  obtain ⟨hff, hfl⟩ := Mem.freeAll_spec R.linked.valid R.linked.nodup
  have hlive : (l.mem.freeAll xs).live = mem₀.live := by
    funext p
    rw [Bool.eq_iff_iff, hfl, R.live, R.mem_iff]
    constructor
    · rintro ⟨h | h, hn⟩
      · exact h
      · exact absurd h hn
    · intro h
      refine ⟨Or.inl h, fun hs => ?_⟩
      rw [R.apart p hs] at h
      cases h
  refine ⟨l, calls, _, hl, hdes, hff.trans R.linked.faults, hlive, fun p => ?_⟩
  refine Mem.count_deleted (congrFun hlive p) ?_
  rw [(Mem.freeAll_conserves l.mem xs).made_eq (hff.trans R.linked.faults), hm]
  rfl

/-- The address of a timer that expired is used again, and the destructor finds two timers. -/
theorem list_frees_all_reuse :
    let ops : List ListOp := [.add 8 5 1 0, .add 16 9 1 1, .tick 5, .add 8 7 1 2]
    ∃ l calls l', SortTimerLst.execAll 5 (.init (Mem.blank (.fresh 0 0 0))) ops = some (l, calls) ∧
      l.destroy 5 = some l' ∧ l'.mem.faults = [] ∧ (∀ p, l'.mem.live p = false) ∧
      l'.mem.deleted.count 8 = 2 ∧ l'.mem.deleted.count 16 = 1 := by
  intro ops
  have hr : Run (ScheduleStep (Mem.blank (.fresh 0 0 0))) .empty ops
      (ops.foldl Schedule.step .empty) :=
    .cons ⟨by decide, rfl⟩ (.cons ⟨by decide, rfl⟩ (.cons ⟨trivial, rfl⟩
      (.cons ⟨by decide, rfl⟩ (.nil _))))
  obtain ⟨l, calls, l', hl, hd, hf, hlive, hc⟩ := list_frees_all rfl hr (Nat.lt_succ_self 4)
  exact ⟨l, calls, l', hl, hd, hf, fun p => congrFun hlive p, hc 8, hc 16⟩

/-! ## The time wheel -/

namespace TimeWheel

/-- The `while(tmp)` loop of `~time_wheel` in the slot `i`. -/
def destroyLoop (fuel : ℕ) (w : TimeWheel) (i : ℕ) (tmp : Ptr) : Option TimeWheel :=
  match fuel with
  | 0 => none
  | fuel + 1 =>
    if tmp = 0 then some w
    else
      let w₁ := (w.deref tmp).setSlot i (w.next tmp)
      destroyLoop fuel ((w₁.delete tmp).slot i) i ((w₁.delete tmp).slots i)

/-- `~time_wheel`. -/
def destroy (fuel : ℕ) (w : TimeWheel) : Option TimeWheel :=
  (List.range N).foldlM (fun w i => destroyLoop fuel (w.slot i) i (w.slots i)) w

theorem destroyLoop_eq {w : TimeWheel} {i : ℕ} {xs : List Ptr} {tmp : Ptr} {fuel : ℕ} (hi : i < N)
    (hs : Seg w.next tmp xs 0) (h0 : ∀ x ∈ xs, x ≠ 0) (hh : w.slots i = tmp)
    (hf : xs.length < fuel) :
    destroyLoop fuel w i tmp =
      some { w with mem := w.mem.freeAll xs, slots := Function.update w.slots i 0 } := by
  induction xs generalizing w tmp fuel with
  | nil =>
    obtain ⟨fuel, rfl⟩ := Nat.exists_eq_add_of_lt hf
    obtain rfl : tmp = 0 := hs
    rw [destroyLoop, if_pos rfl, ← hh, Function.update_eq_self]
    rfl
  | cons x xs ih =>
    obtain ⟨fuel, rfl⟩ : ∃ k, fuel = k + 1 := ⟨fuel - 1, by omega⟩
    obtain ⟨rfl, hs⟩ := hs
    set g : TimeWheel :=
      ⟨(w.mem.check tmp).delete tmp, Function.update w.slots i (w.next tmp), w.curSlot⟩ with hg
    have hround : destroyLoop (fuel + 1) w i tmp = destroyLoop fuel g i (w.next tmp) := by
      rw [destroyLoop, if_neg (h0 tmp List.mem_cons_self), setSlot_of_lt _ hi]
      dsimp only
      rw [slot_of_lt hi]
      show destroyLoop fuel g i (Function.update w.slots i (w.next tmp) i) = _
      rw [Function.update_self]
    have hnext : g.next = w.next := by
      funext q
      show (((w.mem.check tmp).delete tmp).cell q).next = _
      rw [Mem.delete_cell, Mem.check_cell]
      rfl
    have hs' : Seg g.next (w.next tmp) xs 0 := hnext.symm ▸ hs
    have hrest := ih hs' (fun y hy => h0 y (List.mem_cons_of_mem _ hy))
      (Function.update_self i (w.next tmp) w.slots) (Nat.lt_of_succ_lt_succ hf)
    rw [hround, hrest, hg]
    dsimp only
    rw [Function.update_idem]
    rfl

/-- The destructor after the first `k` slots. -/
theorem destroy_rounds {w : TimeWheel} {xs : ℕ → List Ptr} {fuel k : ℕ} (W : Wheeled w xs)
    (hf : ∀ i, (xs i).length < fuel) (hk : k ≤ N) :
    (List.range k).foldlM (fun w i => destroyLoop fuel (w.slot i) i (w.slots i)) w =
      some { w with
        mem := w.mem.freeAll ((List.range k).flatMap xs)
        slots := fun i => if i < k then 0 else w.slots i } := by
  induction k with
  | zero => simp [Mem.freeAll]
  | succ k ih =>
    rw [List.range_succ, List.foldlM_append, ih (by omega), List.flatMap_append,
      Mem.freeAll_append, Option.bind_eq_bind, Option.bind_some, List.foldlM_cons,
      slot_of_lt (by omega)]
    obtain ⟨e, hl⟩ := W.links k (by omega)
    set g : TimeWheel := { w with
      mem := w.mem.freeAll ((List.range k).flatMap xs)
      slots := fun i => if i < k then 0 else w.slots i } with hg
    have hslot : g.slots k = w.slots k := if_neg (lt_irrefl k)
    have hnext : g.next = w.next := by
      funext q
      show ((w.mem.freeAll _).cell q).next = _
      rw [Mem.freeAll_cell]
      rfl
    have hs : Seg g.next (g.slots k) (xs k) 0 := by
      rw [hnext, hslot]
      exact hl.forward
    rw [destroyLoop_eq (by omega) hs (fun x hx => (W.valid k (by omega) x hx).1) rfl (hf k)]
    simp only [List.flatMap_cons, List.flatMap_nil, List.append_nil]
    refine congrArg some (congrArg₂ (fun m f => (⟨m, f, w.curSlot⟩ : TimeWheel)) rfl ?_)
    funext i
    by_cases hik : i = k
    · rw [hik, Function.update_self, if_pos (Nat.lt_succ_self k)]
    · rw [Function.update_of_ne hik]
      exact if_congr (by omega) rfl rfl

section Conserves

variable (w : TimeWheel)

theorem slot_conserves (i : ℕ) : w.mem.Conserves (w.slot i).mem := by
  unfold slot
  split_ifs
  · exact .refl _
  · exact Mem.fault_conserves _ _

theorem dropHead_conserves (i : ℕ) (timer : Ptr) : w.mem.Conserves (w.dropHead i timer).mem := by
  unfold dropHead
  split_ifs
  · exact slot_conserves w i
  · exact (slot_conserves w i).trans (Mem.modify_conserves _ _ _)

theorem bypass_conserves (timer : Ptr) : w.mem.Conserves (w.bypass timer).mem := by
  have hn := Mem.modify_conserves w.mem (w.prev timer) fun t => { t with next := w.next timer }
  unfold bypass
  dsimp only
  split_ifs
  · exact hn
  · exact hn.trans (Mem.modify_conserves _ _ _)

theorem delTimer_conserves (timer : Ptr) : w.mem.Conserves (w.delTimer timer).mem := by
  have hd := (Mem.check_conserves w.mem timer).trans (slot_conserves (w.deref timer) (w.timeSlot timer))
  unfold delTimer
  dsimp only
  split_ifs
  · exact .refl _
  · exact (hd.trans (dropHead_conserves _ _ _)).trans (Mem.delete_conserves _ _)
  · exact (hd.trans (bypass_conserves _ _)).trans (Mem.delete_conserves _ _)

theorem setCall_conserves (timer : Ptr) (call : Call) :
    w.mem.Conserves (w.setCall timer call).mem := Mem.modify_conserves _ _ _

/-- The new timer is the only object `add_timer` makes. -/
theorem addTimer_conserves (timer : Ptr) {timeout : ℤ} (ht : 0 ≤ timeout) :
    (w.created timer timeout).mem.Conserves (w.addTimer timer timeout).1.mem := by
  rw [addTimer_eq w timer ht]
  have hd := slot_conserves (w.created timer timeout) (w.slotFor timeout)
  split_ifs
  · exact hd.trans (slot_conserves _ _)
  · exact ((hd.trans (Mem.modify_conserves _ _ _)).trans (Mem.modify_conserves _ _ _)).trans
      (slot_conserves _ _)

variable {w}

theorem tickLoop_conserves {fuel : ℕ} {w' : TimeWheel} {tmp : Ptr} {fired : List (Ptr × Call)}
    (h : tickLoop fuel w tmp = some (w', fired)) : w.mem.Conserves w'.mem := by
  induction fuel generalizing w tmp fired with
  | zero => cases h
  | succ fuel ih =>
    rw [tickLoop] at h
    have hd := Mem.check_conserves w.mem tmp
    by_cases h0 : tmp = 0
    · rw [if_pos h0] at h
      cases h
      exact .refl _
    rw [if_neg h0] at h
    by_cases hr : 0 < w.rotation tmp
    · rw [if_pos hr] at h
      exact (hd.trans (Mem.modify_conserves _ _ _)).trans (ih h)
    rw [if_neg hr] at h
    -- the call through `cb_func`
    set w₂ : TimeWheel := if (w.mem.cell tmp).cbFunc = 0 then
      { w.deref tmp with mem := (w.deref tmp).mem.fault .null } else w.deref tmp with hw₂
    have hc : w.mem.Conserves w₂.mem := by
      rw [hw₂]
      split_ifs
      · exact hd.trans (Mem.fault_conserves _ _)
      · exact hd
    have hs := hc.trans (slot_conserves w₂ w.curSlot)
    by_cases hh : tmp = w.slots w.curSlot
    · rw [if_pos hh] at h
      obtain ⟨⟨w₁, fired₁⟩, hl, hw'⟩ := Option.map_eq_some_iff.mp h
      obtain ⟨rfl, -⟩ := Prod.mk.inj hw'
      refine Mem.Conserves.trans ?_ (ih hl)
      have hx := (hs.trans (slot_conserves _ w.curSlot)).trans (Mem.delete_conserves _ tmp)
      split_ifs
      · exact hx
      · exact hx.trans (Mem.modify_conserves _ _ _)
    · rw [if_neg hh] at h
      obtain ⟨⟨w₁, fired₁⟩, hl, hw'⟩ := Option.map_eq_some_iff.mp h
      obtain ⟨rfl, -⟩ := Prod.mk.inj hw'
      exact ((hs.trans (bypass_conserves _ tmp)).trans (Mem.delete_conserves _ tmp)).trans (ih hl)

end Conserves

end TimeWheel

/-- The objects an operation allocates. -/
def WheelOp.added : WheelOp → List Ptr
  | add p _ _ => [p]
  | _ => []

namespace TimeWheel

theorem exec_made {w w' : TimeWheel} {op : WheelOp} {fuel : ℕ} {fired : List (Ptr × Call)}
    (ha : op.Allowed w) (h : w.exec fuel op = some (w', fired)) (hf : w'.mem.faults = []) (p : Ptr) :
    w'.mem.made p = w.mem.made p + op.added.count p := by
  cases op with
  | add q timeout call =>
    obtain ⟨⟨-, hdead⟩, ht, -⟩ := ha
    obtain ⟨rfl, -⟩ := Prod.mk.inj (Option.some.inj h)
    rw [((addTimer_conserves w q ht).trans (setCall_conserves _ q call)).made_eq hf]
    show (w.mem.create q _).made p = _
    rw [Mem.made_create _ hdead, WheelOp.added, List.count_singleton]
    by_cases hp : p = q
    · rw [hp, Function.update_self, if_pos (beq_self_eq_true q)]
    · rw [Function.update_of_ne hp, if_neg (by simpa using Ne.symm hp)]
      rfl
  | del q =>
    obtain ⟨rfl, -⟩ := Prod.mk.inj (Option.some.inj h)
    exact congrFun ((delTimer_conserves w q).made_eq hf) p
  | tick =>
    obtain ⟨⟨w₁, fired₁⟩, hl, hw'⟩ := Option.map_eq_some_iff.mp h
    obtain ⟨rfl, -⟩ := Prod.mk.inj hw'
    exact congrFun (((slot_conserves w _).trans (tickLoop_conserves hl)).made_eq hf) p

theorem run_made {mem : Mem TwTimer} {fuel : ℕ} {w : TimeWheel}
    {as : List (WheelOp × List (Ptr × Call))} (hl : ∀ p, mem.live p = false) (hf : mem.faults = [])
    (hr : Run (WheelStep fuel) (.init mem) as w) (hn : as.length < fuel) (p : Ptr) :
    w.mem.made p = mem.made p + (as.flatMap fun a => a.1.added).count p := by
  refine (hr.history (fun as w => as.length < fuel → Run (WheelStep fuel) (.init mem) as w ∧
    w.mem.made p = mem.made p + (as.flatMap fun a => a.1.added).count p)
    (fun _ => ⟨.nil _, by simp [TimeWheel.init]⟩) ?_ hn).2
  intro as w a w' ih hs hlen
  obtain ⟨hr', hm⟩ := ih (by rw [List.length_append] at hlen; omega)
  have hr'' := hr'.append (.single hs)
  obtain ⟨xs, C, -⟩ := counts_of_run hl hf hr'' hlen
  refine ⟨hr'', ?_⟩
  rw [exec_made hs.1 hs.2 C.wheeled.faults, hm, List.flatMap_append, List.count_append,
    Nat.add_assoc, List.flatMap_singleton]

end TimeWheel

/-- **Every timer is deleted once.** The destructor of a wheel ends without a fault and leaves
nothing behind: each address was deleted as often as a timer was allocated at it, over all the slots
and whether the timer was deleted, has fired or was still waiting. -/
theorem wheel_frees_all {mem : Mem TwTimer} (hl : ∀ p, mem.live p = false) (hf : mem.faults = [])
    {fuel : ℕ} {w : TimeWheel} {as : List (WheelOp × List (Ptr × Call))}
    (hr : Run (WheelStep fuel) (.init mem) as w) (hn : as.length < fuel) :
    ∃ w', w.destroy fuel = some w' ∧ w'.mem.faults = [] ∧ (∀ i < TimeWheel.N, w'.slots i = 0) ∧
      (∀ p, w'.mem.live p = false) ∧
      ∀ p, w'.mem.deleted.count p =
        mem.deleted.count p + (as.flatMap fun a => a.1.added).count p := by
  obtain ⟨xs, C, hx⟩ := TimeWheel.counts_of_run hl hf hr hn
  have W := C.wheeled
  have hdes := TimeWheel.destroy_rounds W (fun i => (hx i).trans_lt hn) le_rfl
  set ys := (List.range TimeWheel.N).flatMap xs with hys
  have hmem : ∀ p, p ∈ ys ↔ ∃ i < TimeWheel.N, p ∈ xs i := by
    intro p
    rw [hys, List.mem_flatMap]
    simp only [List.mem_range]
  have hnd : ys.Nodup := by
    refine List.nodup_flatMap.mpr ⟨fun i hi => W.nodup i (List.mem_range.mp hi), ?_⟩
    refine List.nodup_range.imp_of_mem ?_
    intro i j hi hj hij p hpi hpj
    rw [← W.home i (List.mem_range.mp hi) p hpi, ← W.home j (List.mem_range.mp hj) p hpj] at hij
    exact hij rfl
  have hv : ∀ p ∈ ys, w.mem.Valid p := by
    intro p hp
    obtain ⟨i, hi, hpi⟩ := (hmem p).mp hp
    exact W.valid i hi p hpi
  obtain ⟨hff, hfl⟩ := Mem.freeAll_spec hv hnd
  have hlive : ∀ p, (w.mem.freeAll ys).live p = false := by
    intro p
    rw [← Bool.not_eq_true, hfl, hmem, C.mem_iff, C.live]
    exact fun h => h.2 h.1
  refine ⟨_, hdes, hff.trans W.faults, fun i hi => if_pos hi, hlive, fun p => ?_⟩
  refine Mem.count_deleted ((hlive p).trans (hl p).symm) ?_
  rw [(Mem.freeAll_conserves w.mem ys).made_eq (hff.trans W.faults),
    TimeWheel.run_made hl hf hr hn]

/-- One timer fires, one is deleted, and two of one slot are left to the destructor. -/
theorem wheel_frees_all_four :
    let as : List (WheelOp × List (Ptr × Call)) :=
      [(.add 8 0 ⟨1, 7⟩, []), (.add 16 5 ⟨1, 8⟩, []), (.tick, []), (.tick, [(8, ⟨1, 7⟩)]),
        (.del 16, []), (.add 8 61 ⟨1, 9⟩, []), (.add 24 1 ⟨1, 7⟩, [])]
    ∃ w w', Run (WheelStep 8) (.init (Mem.blank ⟨0, 0, 0, 0, 0, 0⟩)) as w ∧
      w.destroy 8 = some w' ∧ w'.mem.faults = [] ∧ (∀ p, w'.mem.live p = false) ∧
      w'.mem.deleted.count 8 = 2 ∧ w'.mem.deleted.count 16 = 1 ∧ w'.mem.deleted.count 24 = 1 := by
  intro as
  have hr : Run (WheelStep 8) (.init (Mem.blank ⟨0, 0, 0, 0, 0, 0⟩)) as _ :=
    .cons ⟨by decide, rfl⟩ (.cons ⟨by decide, rfl⟩ (.cons ⟨trivial, rfl⟩ (.cons ⟨trivial, rfl⟩
      (.cons ⟨by decide, rfl⟩ (.cons ⟨by decide, rfl⟩ (.cons ⟨by decide, rfl⟩ (.nil _)))))))
  obtain ⟨w', hd, hf, -, hlive, hc⟩ := wheel_frees_all (fun _ => rfl) rfl hr (Nat.lt_succ_self 7)
  exact ⟨_, w', hr, hd, hf, hlive, hc 8, hc 16, hc 24⟩

end SocketTest.Timer
