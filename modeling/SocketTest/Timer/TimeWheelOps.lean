import SocketTest.Lib.LinkedList
import SocketTest.Timer.TimeWheel

/-!
# What each operation does to a `time_wheel`

`Wheeled w xs` says that the slot `i` holds the timers `xs i`, linked both ways, each of which names
`i` as its slot. Removing a timer from its slot is the same in `del_timer` and in `tick`
(`unlinked_spec`); `tickLoop_spec` follows the walk through the current slot, with the timers passed
and kept so far as the invariant.
-/

namespace SocketTest.Timer

open SocketTest.Lib

/-- What a timer carries apart from its links and its countdown. -/
def TwTimer.data (t : TwTimer) : ℕ × Call := (t.timeSlot, t.call)

namespace TimeWheel

/-! ## Field writes -/

section Writes

variable (w : TimeWheel) (p q : Ptr)

@[simp] theorem setNext_next : (w.setNext p q).next = Function.update w.next p q :=
  Mem.field_modify w.mem p TwTimer.next (fun t => { t with next := q })

@[simp] theorem setNext_prev : (w.setNext p q).prev = w.prev :=
  Mem.field_modify_of_eq w.mem p TwTimer.prev (fun t => { t with next := q }) rfl

@[simp] theorem setPrev_next : (w.setPrev p q).next = w.next :=
  Mem.field_modify_of_eq w.mem p TwTimer.next (fun t => { t with prev := q }) rfl

@[simp] theorem setPrev_prev : (w.setPrev p q).prev = Function.update w.prev p q :=
  Mem.field_modify w.mem p TwTimer.prev (fun t => { t with prev := q })

theorem delete_next : (w.delete p).next = w.next := by
  funext x; simp [delete, next]

theorem delete_prev : (w.delete p).prev = w.prev := by
  funext x; simp [delete, prev]

variable {w p}

theorem slot_of_lt {i : ℕ} (hi : i < N) : w.slot i = w := by
  unfold slot; rw [if_pos hi]

theorem deref_of_valid (h : w.mem.Valid p) : w.deref p = w := by
  unfold deref; rw [Mem.check_of_valid h]

theorem setSlot_of_lt {i : ℕ} (hi : i < N) :
    w.setSlot i q = { w with slots := Function.update w.slots i q } := by
  unfold setSlot; rw [slot_of_lt hi]

end Writes

/-- `w'` has the objects of `w`, and every timer its rotation, its slot and its callback. -/
structure Frame (w w' : TimeWheel) : Prop where
  curSlot : w'.curSlot = w.curSlot
  live : w'.mem.live = w.mem.live
  faults : w'.mem.faults = w.mem.faults
  rotation : w'.rotation = w.rotation
  data : ∀ p, (w'.mem.cell p).data = (w.mem.cell p).data

namespace Frame

variable {w w' w'' : TimeWheel}

theorem trans (a : Frame w w') (b : Frame w' w'') : Frame w w'' :=
  ⟨b.curSlot.trans a.curSlot, b.live.trans a.live, b.faults.trans a.faults,
    b.rotation.trans a.rotation, fun p => (b.data p).trans (a.data p)⟩

theorem valid (a : Frame w w') {p : Ptr} : w'.mem.Valid p ↔ w.mem.Valid p := by
  unfold Mem.Valid; rw [a.live]

theorem timeSlot (a : Frame w w') : w'.timeSlot = w.timeSlot :=
  funext fun p => congrArg Prod.fst (a.data p)

end Frame

theorem setNext_frame {w : TimeWheel} {p : Ptr} (h : w.mem.Valid p) (q : Ptr) :
    Frame w (w.setNext p q) :=
  ⟨rfl, Mem.modify_live _ _ _, Mem.modify_faults h _,
    Mem.field_modify_of_eq w.mem p TwTimer.rotation (fun t => { t with next := q }) rfl,
    congrFun (Mem.field_modify_of_eq w.mem p TwTimer.data (fun t => { t with next := q }) rfl)⟩

theorem setPrev_frame {w : TimeWheel} {p : Ptr} (h : w.mem.Valid p) (q : Ptr) :
    Frame w (w.setPrev p q) :=
  ⟨rfl, Mem.modify_live _ _ _, Mem.modify_faults h _,
    Mem.field_modify_of_eq w.mem p TwTimer.rotation (fun t => { t with prev := q }) rfl,
    congrFun (Mem.field_modify_of_eq w.mem p TwTimer.data (fun t => { t with prev := q }) rfl)⟩

theorem setSlot_frame {w : TimeWheel} {i : ℕ} (hi : i < N) (q : Ptr) : Frame w (w.setSlot i q) := by
  rw [setSlot_of_lt q hi]
  exact ⟨rfl, rfl, rfl, rfl, fun _ => rfl⟩

/-! ## The slots -/

/-- Slot `i` holds the timers `xs i`. -/
structure Wheeled (w : TimeWheel) (xs : ℕ → List Ptr) : Prop where
  cur_lt : w.curSlot < N
  links : ∀ i < N, ∃ e, DSeg w.next w.prev 0 (w.slots i) (xs i) 0 e
  nodup : ∀ i < N, (xs i).Nodup
  home : ∀ i < N, ∀ p ∈ xs i, w.timeSlot p = i
  valid : ∀ i < N, ∀ p ∈ xs i, w.mem.Valid p
  faults : w.mem.faults = []

/-- An operation on slot `i` that leaves the timers of the other slots alone. -/
theorem Wheeled.edit {w w' : TimeWheel} {xs : ℕ → List Ptr} (W : Wheeled w xs) {i : ℕ} {ys : List Ptr}
    (hcur : w'.curSlot = w.curSlot) (hslots : ∀ j, j ≠ i → w'.slots j = w.slots j)
    (hlinks : ∃ e, DSeg w'.next w'.prev 0 (w'.slots i) ys 0 e) (hnd : ys.Nodup)
    (hhome : ∀ p ∈ ys, w'.timeSlot p = i) (hv : ∀ p ∈ ys, w'.mem.Valid p)
    (hfl : w'.mem.faults = [])
    (hother : ∀ j < N, j ≠ i → ∀ y ∈ xs j, (w'.next y = w.next y ∧ w'.prev y = w.prev y) ∧
      w'.timeSlot y = w.timeSlot y ∧ w'.mem.live y = w.mem.live y) :
    Wheeled w' (Function.update xs i ys) := by
  constructor
  · rw [hcur]
    exact W.cur_lt
  · refine (Function.forall_update_iff xs fun j ys =>
      j < N → ∃ e, DSeg w'.next w'.prev 0 (w'.slots j) ys 0 e).2 ⟨fun _ => hlinks, fun j hji hj => ?_⟩
    rw [hslots j hji]
    obtain ⟨e, he⟩ := W.links j hj
    exact ⟨e, he.congr (fun y hy => (hother j hj hji y hy).1.1)
      fun y hy => (hother j hj hji y hy).1.2⟩
  · exact (Function.forall_update_iff xs fun j ys => j < N → ys.Nodup).2
      ⟨fun _ => hnd, fun j _ => W.nodup j⟩
  · refine (Function.forall_update_iff xs fun j ys => j < N → ∀ p ∈ ys, w'.timeSlot p = j).2
      ⟨fun _ => hhome, fun j hji hj p hp => ?_⟩
    exact (hother j hj hji p hp).2.1.trans (W.home j hj p hp)
  · refine (Function.forall_update_iff xs fun j ys => j < N → ∀ p ∈ ys, w'.mem.Valid p).2
      ⟨fun _ => hv, fun j hji hj p hp => ⟨(W.valid j hj p hp).1, ?_⟩⟩
    rw [(hother j hj hji p hp).2.2]
    exact (W.valid j hj p hp).2
  · exact hfl

section Slot

variable {w : TimeWheel} {xs : ℕ → List Ptr} (W : Wheeled w xs) {i : ℕ} (hi : i < N)

include W hi

/-- Two slots have no timer in common. -/
theorem Wheeled.apart {j : ℕ} (hj : j < N) (hji : j ≠ i) {p y : Ptr} (hp : p ∈ xs i)
    (hy : y ∈ xs j) : y ≠ p := by
  rintro rfl
  exact hji ((W.home j hj y hy).symm.trans (W.home i hi y hp))

theorem Wheeled.slot_eq : w.slots i = (xs i).headD 0 := by
  obtain ⟨e, he⟩ := W.links i hi
  cases hx : xs i with
  | nil => rw [hx] at he; exact he.1
  | cons x r => rw [hx] at he; exact he.1

variable {ys r : List Ptr} {p : Ptr} (hx : xs i = ys ++ p :: r)

include hx

theorem Wheeled.next_eq : w.next p = r.headD 0 := by
  obtain ⟨e, he⟩ := W.links i hi
  rw [hx] at he
  exact he.links.2

theorem Wheeled.prev_eq : w.prev p = ys.getLastD 0 := by
  obtain ⟨e, he⟩ := W.links i hi
  rw [hx] at he
  exact he.links.1

theorem Wheeled.eq_slot_iff : p = w.slots i ↔ ys = [] := by
  have hnd := W.nodup i hi
  rw [W.slot_eq hi, hx]
  rw [hx] at hnd
  cases ys with
  | nil => simp
  | cons y ys =>
    have hne : p ≠ y := by
      rintro rfl
      simp at hnd
    simpa using hne

theorem Wheeled.prev_mem : w.prev p = 0 ∨ w.prev p ∈ ys := by
  rw [W.prev_eq hi hx]
  exact List.mem_cons.mp List.getLastD_mem_cons

theorem Wheeled.next_mem : w.next p = 0 ∨ w.next p ∈ r := by
  rw [W.next_eq hi hx]
  cases r with
  | nil => exact .inl rfl
  | cons x r => exact .inr List.mem_cons_self

/-- A timer is not its own predecessor. -/
theorem Wheeled.ne_prev : p ≠ w.prev p := by
  have hp : p ∈ xs i := by simp [hx]
  have hnd := W.nodup i hi
  rw [hx] at hnd
  intro he
  rcases W.prev_mem hi hx with h0 | hm
  · exact (W.valid i hi p hp).1 (he.trans h0)
  · rw [← he] at hm
    exact (List.nodup_append.mp hnd).2.2 p hm p List.mem_cons_self rfl

/-- A timer of another slot is neither of the neighbours. -/
theorem Wheeled.neighbours_apart {j : ℕ} (hj : j < N) (hji : j ≠ i) {y : Ptr} (hy : y ∈ xs j) :
    y ≠ w.prev p ∧ y ≠ w.next p := by
  have h0 : y ≠ 0 := (W.valid j hj y hy).1
  have hne : ∀ x ∈ xs i, y ≠ x := fun x hm => W.apart hi hj hji hm hy
  constructor
  · rcases W.prev_mem hi hx with he | hm
    · rwa [he]
    · exact hne _ (by simp [hx, hm])
  · rcases W.next_mem hi hx with he | hm
    · rwa [he]
    · exact hne _ (by simp [hx, hm])

end Slot

/-! ## Removal -/

/-- `timer` taken out of the list of slot `i`, as `del_timer` and `tick` do it. -/
def unlinked (w : TimeWheel) (i : ℕ) (timer : Ptr) : TimeWheel :=
  if timer = w.slots i then w.dropHead i timer else w.bypass timer

section Removal

variable {w : TimeWheel} {xs : ℕ → List Ptr} (W : Wheeled w xs) {i : ℕ} (hi : i < N)
  {ys r : List Ptr} {p : Ptr} (hx : xs i = ys ++ p :: r)

include W hi hx

theorem next_valid (hr : r ≠ []) : w.mem.Valid (w.next p) := by
  rw [W.next_eq hi hx]
  apply W.valid i hi
  rw [hx]
  cases r with
  | nil => exact absurd rfl hr
  | cons x r => simp

theorem next_eq_zero_iff : w.next p = 0 ↔ r = [] := by
  constructor
  · intro h0
    by_contra hr
    exact (next_valid W hi hx hr).1 h0
  · rintro rfl
    exact W.next_eq hi hx

/-- At the head of the slot: the slot and the next timer are written. -/
theorem dropHead_writes (hy : ys = []) :
    Frame w (w.dropHead i p) ∧
      (w.dropHead i p).slots = Function.update w.slots i (w.next p) ∧
      (∀ y, (w.dropHead i p).next y = w.next y) ∧
      (∀ y, y ≠ w.next p → (w.dropHead i p).prev y = w.prev y) ∧
      (r ≠ [] → (w.dropHead i p).prev (w.next p) = w.prev p) := by
  have hp0 : w.prev p = 0 := by
    rw [W.prev_eq hi hx, hy]
    rfl
  have hn0 := next_eq_zero_iff W hi hx
  have hfs := setSlot_frame (w := w) hi (w.next p)
  unfold dropHead
  by_cases hr : r = []
  · rw [if_pos (hn0.mpr hr)]
    rw [setSlot_of_lt _ hi] at hfs ⊢
    exact ⟨hfs, rfl, fun _ => rfl, fun _ _ => rfl, fun h => absurd hr h⟩
  · rw [if_neg (mt hn0.mp hr)]
    have hfp := setPrev_frame (hfs.valid.mpr (next_valid W hi hx hr)) 0
    rw [setSlot_of_lt _ hi] at hfs hfp ⊢
    refine ⟨hfs.trans hfp, rfl, ?_, ?_, fun _ => ?_⟩
    · intro y
      rw [setPrev_next]
      rfl
    · intro y hne
      rw [setPrev_prev, Function.update_of_ne hne]
      rfl
    · rw [setPrev_prev, Function.update_self, hp0]

/-- Elsewhere: the two neighbours are written. -/
theorem bypass_writes (hy : ys ≠ []) :
    Frame w (w.bypass p) ∧ (w.bypass p).slots = w.slots ∧
      (∀ y, y ≠ w.prev p → (w.bypass p).next y = w.next y) ∧
      (w.bypass p).next (w.prev p) = w.next p ∧
      (∀ y, y ≠ w.next p → (w.bypass p).prev y = w.prev y) ∧
      (r ≠ [] → (w.bypass p).prev (w.next p) = w.prev p) := by
  obtain ⟨ys', a, rfl⟩ : ∃ ys' a, ys = ys' ++ [a] := by
    rcases List.eq_nil_or_concat ys with hn | ⟨ys', a, hc⟩
    · exact absurd hn hy
    · exact ⟨ys', a, by rw [hc, List.concat_eq_append]⟩
  have hpa : w.prev p = a := by
    rw [W.prev_eq hi hx]
    simp
  have hne : p ≠ a := hpa ▸ W.ne_prev hi hx
  have hva : w.mem.Valid a := W.valid i hi a (by rw [hx]; simp)
  have hn0 := next_eq_zero_iff W hi hx
  have hfn := setNext_frame hva (w.next p)
  have hnx : (w.setNext a (w.next p)).next p = w.next p := by
    rw [setNext_next, Function.update_of_ne hne]
  unfold bypass
  rw [hpa]
  dsimp only
  rw [hnx, setNext_prev, hpa]
  by_cases hr : r = []
  · rw [if_pos (hn0.mpr hr)]
    refine ⟨hfn, rfl, ?_, ?_, ?_, fun h => absurd hr h⟩
    · intro y hya
      rw [setNext_next, Function.update_of_ne hya]
    · rw [setNext_next, Function.update_self]
    · exact fun y _ => by rw [setNext_prev]
  · rw [if_neg (mt hn0.mp hr)]
    have hfp := setPrev_frame (hfn.valid.mpr (next_valid W hi hx hr)) a
    refine ⟨hfn.trans hfp, rfl, ?_, ?_, ?_, fun _ => ?_⟩
    · intro y hya
      rw [setPrev_next, setNext_next, Function.update_of_ne hya]
    · rw [setPrev_next, setNext_next, Function.update_self]
    · intro y hyx
      rw [setPrev_prev, setNext_prev, Function.update_of_ne hyx]
    · rw [setPrev_prev, Function.update_self]

/-- The links `unlinked` writes: those of the two neighbours and the head of the slot. -/
theorem unlinked_writes :
    Frame w (w.unlinked i p) ∧
      (w.unlinked i p).slots = (if ys = [] then Function.update w.slots i (w.next p) else w.slots) ∧
      (∀ y, y ≠ w.prev p → (w.unlinked i p).next y = w.next y) ∧
      (ys ≠ [] → (w.unlinked i p).next (w.prev p) = w.next p) ∧
      (∀ y, y ≠ w.next p → (w.unlinked i p).prev y = w.prev y) ∧
      (r ≠ [] → (w.unlinked i p).prev (w.next p) = w.prev p) := by
  unfold unlinked
  by_cases hy : ys = []
  · rw [if_pos ((W.eq_slot_iff hi hx).mpr hy), if_pos hy]
    obtain ⟨hfr, hslots, hn, hp, hpx⟩ := dropHead_writes W hi hx hy
    exact ⟨hfr, hslots, fun y _ => hn y, fun h => absurd hy h, hp, hpx⟩
  · rw [if_neg (mt (W.eq_slot_iff hi hx).mp hy), if_neg hy]
    obtain ⟨hfr, hslots, hn, hna, hp, hpx⟩ := bypass_writes W hi hx hy
    exact ⟨hfr, hslots, hn, fun _ => hna, hp, hpx⟩

/-- The timer out of its slot and deleted: the slot holds the others, and the walk goes on at the
timer's successor. -/
theorem unlinked_spec :
    Wheeled ((w.unlinked i p).delete p) (Function.update xs i (ys ++ r)) ∧
      Frame w (w.unlinked i p) ∧ w.mem.Valid p ∧
      (w.unlinked i p).next p = r.headD 0 := by
  obtain ⟨hfr, hslots, hn, hna, hp, hpx⟩ := unlinked_writes W hi hx
  have hnd := W.nodup i hi
  rw [hx] at hnd
  have hvp : w.mem.Valid p := W.valid i hi p (by rw [hx]; simp)
  have hsub : ∀ y ∈ ys ++ r, y ∈ xs i ∧ y ≠ p := by
    intro y hy
    rw [hx]
    exact ⟨by grind, by grind⟩
  have h0 : ∀ y ∈ ys ++ r, y ≠ 0 := fun y hy => (W.valid i hi y (hsub y hy).1).1
  refine ⟨W.edit hfr.curSlot ?_ ?_ (by grind) ?_ ?_ ?_ ?_, hfr, hvp, ?_⟩
  · intro j hji
    show (w.unlinked i p).slots j = _
    rw [hslots]
    by_cases hy : ys = []
    · rw [if_pos hy, Function.update_of_ne hji]
    · rw [if_neg hy]
  · obtain ⟨e, he⟩ := W.links i hi
    rw [hx] at he
    rw [delete_next, delete_prev]
    have hu := DSeg.unlink he hnd (fun hm => h0 0 hm rfl) (fun y _ => hn y) hna (fun y _ => hp y) hpx
    have hhead : (if ys = [] then w.next p else w.slots i) = ((w.unlinked i p).delete p).slots i := by
      show _ = (w.unlinked i p).slots i
      rw [hslots]
      by_cases hy : ys = []
      · rw [if_pos hy, if_pos hy, Function.update_self]
      · rw [if_neg hy, if_neg hy]
    rw [hhead] at hu
    exact ⟨_, hu⟩
  · intro y hy
    refine Eq.trans ?_ (W.home i hi y (hsub y hy).1)
    rw [← hfr.timeSlot]
    simp [timeSlot, delete]
  · intro y hy
    refine (Mem.delete_valid hvp.1).mpr ⟨?_, (hsub y hy).2⟩
    rw [hfr.valid]
    exact W.valid i hi y (hsub y hy).1
  · show ((w.unlinked i p).mem.delete p).faults = []
    rw [Mem.delete_faults (hfr.valid.mpr hvp), hfr.faults, W.faults]
  · intro j hj hji y hy
    have hyp : y ≠ p := W.apart hi hj hji (by simp [hx]) hy
    obtain ⟨hprev, hnext⟩ := W.neighbours_apart hi hx hj hji hy
    rw [delete_next, delete_prev]
    refine ⟨⟨hn y hprev, hp y hnext⟩, ?_, ?_⟩
    · rw [← hfr.timeSlot]
      simp [timeSlot, delete]
    · show ((w.unlinked i p).mem.delete p).live y = _
      rw [Mem.delete_live hvp.1, Function.update_of_ne hyp, hfr.live]
  · rw [hn p (W.ne_prev hi hx)]
    exact W.next_eq hi hx

end Removal

/-- `w'` has the objects of `w` but for `ts`, and every timer its slot and its callback. -/
structure Freed (w : TimeWheel) (ts : List Ptr) (w' : TimeWheel) : Prop where
  curSlot : w'.curSlot = w.curSlot
  live : ∀ p, w'.mem.live p = true ↔ w.mem.live p = true ∧ p ∉ ts
  data : ∀ p, (w'.mem.cell p).data = (w.mem.cell p).data

theorem Frame.freed {w g : TimeWheel} (hf : Frame w g) {p : Ptr} (h0 : p ≠ 0) :
    Freed w [p] (g.delete p) ∧ (g.delete p).rotation = w.rotation := by
  refine ⟨⟨hf.curSlot, ?_, ?_⟩, ?_⟩
  · intro q
    show (g.mem.delete p).live q = true ↔ _
    rw [Mem.delete_live h0, hf.live]
    by_cases hq : q = p
    · simp [hq]
    · simp [hq]
  · intro q
    rw [← hf.data]
    simp [delete]
  · rw [← hf.rotation]
    funext q
    simp [delete, TimeWheel.rotation]

/-- `del_timer` of a timer in slot `i`. -/
theorem delTimer_spec {w : TimeWheel} {xs : ℕ → List Ptr} (W : Wheeled w xs) {i : ℕ} (hi : i < N)
    {ys r : List Ptr} {p : Ptr} (hx : xs i = ys ++ p :: r) :
    Wheeled (w.delTimer p) (Function.update xs i (ys ++ r)) ∧ Freed w [p] (w.delTimer p) ∧
      (w.delTimer p).rotation = w.rotation := by
  obtain ⟨W', hfr, hvp, -⟩ := unlinked_spec W hi hx
  have hdel : w.delTimer p = (w.unlinked i p).delete p := by
    unfold delTimer unlinked
    rw [if_neg hvp.1, W.home i hi p (by rw [hx]; simp), deref_of_valid hvp]
    dsimp only
    rw [slot_of_lt hi]
    by_cases hps : p = w.slots i
    · rw [if_pos hps, if_pos hps]
    · rw [if_neg hps, if_neg hps]
  rw [hdel]
  exact ⟨W', hfr.freed hvp.1⟩

/-! ## add_timer -/

/-- The slot and the rotation of a timer added now. -/
def slotFor (w : TimeWheel) (timeout : ℤ) : ℕ := (w.curSlot + ticksOf timeout % N) % N
def rotationFor (timeout : ℤ) : ℕ := ticksOf timeout / N

theorem slotFor_lt (w : TimeWheel) (timeout : ℤ) : w.slotFor timeout < N :=
  Nat.mod_lt _ (by decide)

/-- The new object before it is linked. -/
def created (w : TimeWheel) (p : Ptr) (timeout : ℤ) : TimeWheel :=
  { w with mem := w.mem.create p { w.mem.cell p with
    rotation := rotationFor timeout, timeSlot := w.slotFor timeout, next := 0, prev := 0 } }

theorem created_self (w : TimeWheel) (p : Ptr) (timeout : ℤ) :
    (w.created p timeout).mem.cell p = { w.mem.cell p with
      rotation := rotationFor timeout, timeSlot := w.slotFor timeout, next := 0, prev := 0 } :=
  Function.update_self _ _ _

theorem created_other (w : TimeWheel) {p q : Ptr} (hq : q ≠ p) (timeout : ℤ) :
    (w.created p timeout).mem.cell q = w.mem.cell q := Function.update_of_ne hq _ _

theorem addTimer_eq (w : TimeWheel) (p : Ptr) {timeout : ℤ} (ht : 0 ≤ timeout) :
    (w.addTimer p timeout).1 =
      if w.slots (w.slotFor timeout) = 0 then
        ((w.created p timeout).slot (w.slotFor timeout)).setSlot (w.slotFor timeout) p
      else
        ((((w.created p timeout).slot (w.slotFor timeout)).setNext p
          (w.slots (w.slotFor timeout))).setPrev (w.slots (w.slotFor timeout)) p).setSlot
            (w.slotFor timeout) p := by
  unfold addTimer
  rw [if_neg (not_lt.mpr ht)]
  by_cases hs : w.slots (w.slotFor timeout) = 0
  · rw [if_pos hs]
    exact congrArg Prod.fst (if_pos hs)
  · rw [if_neg hs]
    exact congrArg Prod.fst (if_neg hs)

/-- The links that `add_timer` writes, in both branches: the new timer stands before the old head of
its slot. -/
structure Linked (w w' : TimeWheel) (p : Ptr) (timeout : ℤ) : Prop where
  frame : Frame (w.created p timeout) w'
  slots : w'.slots = Function.update w.slots (w.slotFor timeout) p
  next : w'.next p = w.slots (w.slotFor timeout)
  prev : w'.prev p = 0
  head : w.slots (w.slotFor timeout) ≠ 0 → w'.prev (w.slots (w.slotFor timeout)) = p
  other_next : ∀ q, q ≠ p → w'.next q = w.next q
  other_prev : ∀ q, q ≠ p → q ≠ w.slots (w.slotFor timeout) → w'.prev q = w.prev q

theorem addTimer_linked {w : TimeWheel} {p : Ptr} (h0 : p ≠ 0) {timeout : ℤ} (ht : 0 ≤ timeout)
    (hhead : w.slots (w.slotFor timeout) ≠ 0 →
      w.slots (w.slotFor timeout) ≠ p ∧ w.mem.Valid (w.slots (w.slotFor timeout))) :
    Linked w (w.addTimer p timeout).1 p timeout := by
  have hi : w.slotFor timeout < N := slotFor_lt w timeout
  rw [addTimer_eq w p ht, slot_of_lt hi]
  set g := w.created p timeout with hg
  set ts := w.slotFor timeout with hts
  have hvp : g.mem.Valid p := ⟨h0, Function.update_self _ _ _⟩
  have hself : g.mem.cell p = { w.mem.cell p with
      rotation := rotationFor timeout, timeSlot := ts, next := 0, prev := 0 } :=
    created_self w p timeout
  have hgn : ∀ q, q ≠ p → g.next q = w.next q :=
    fun q hq => congrArg TwTimer.next (created_other w hq timeout)
  have hgp : ∀ q, q ≠ p → g.prev q = w.prev q :=
    fun q hq => congrArg TwTimer.prev (created_other w hq timeout)
  have hprev : g.prev p = 0 := by
    show (g.mem.cell p).prev = 0
    rw [hself]
  by_cases hs : w.slots ts = 0
  · rw [if_pos hs]
    have hfs := setSlot_frame (w := g) hi p
    rw [setSlot_of_lt p hi] at hfs ⊢
    refine ⟨hfs, rfl, ?_, hprev, fun h => absurd hs h, hgn, fun q hq _ => hgp q hq⟩
    show (g.mem.cell p).next = _
    rw [hself, hs]
  · rw [if_neg hs]
    obtain ⟨hsp, hvs⟩ := hhead hs
    have hgv : g.mem.Valid (w.slots ts) := ⟨hvs.1, by
      show Function.update w.mem.live p true _ = true
      rw [Function.update_of_ne hsp]
      exact hvs.2⟩
    have hfn := setNext_frame hvp (w.slots ts)
    have hfp := setPrev_frame (hfn.valid.mpr hgv) p
    have hfs := setSlot_frame (w := (g.setNext p (w.slots ts)).setPrev (w.slots ts) p) hi p
    rw [setSlot_of_lt p hi] at hfs ⊢
    refine ⟨hfn.trans (hfp.trans hfs), rfl, ?_, ?_, fun _ => ?_, fun q hq => ?_, fun q hq hqs => ?_⟩
    · show ((g.setNext p (w.slots ts)).setPrev (w.slots ts) p).next p = _
      rw [setPrev_next, setNext_next, Function.update_self]
    · show ((g.setNext p (w.slots ts)).setPrev (w.slots ts) p).prev p = 0
      rw [setPrev_prev, setNext_prev, Function.update_of_ne hsp.symm, hprev]
    · show ((g.setNext p (w.slots ts)).setPrev (w.slots ts) p).prev (w.slots ts) = p
      rw [setPrev_prev, Function.update_self]
    · show ((g.setNext p (w.slots ts)).setPrev (w.slots ts) p).next q = _
      rw [setPrev_next, setNext_next, Function.update_of_ne hq, hgn q hq]
    · show ((g.setNext p (w.slots ts)).setPrev (w.slots ts) p).prev q = _
      rw [setPrev_prev, setNext_prev, Function.update_of_ne hqs, hgp q hq]

/-- The head of a slot that is not empty is one of its timers. -/
theorem Wheeled.slot_mem {w : TimeWheel} {xs : ℕ → List Ptr} (W : Wheeled w xs) {i : ℕ} (hi : i < N)
    (hs : w.slots i ≠ 0) : w.slots i ∈ xs i := by
  have := W.slot_eq hi
  cases hx : xs i with
  | nil =>
    rw [hx] at this
    exact absurd this hs
  | cons x r =>
    rw [hx] at this
    simp [this]

/-- The list of the slot with the timer at its front. -/
theorem Linked.front_links {w w' : TimeWheel} {p : Ptr} {timeout : ℤ} (L : Linked w w' p timeout)
    {xs : ℕ → List Ptr} (W : Wheeled w xs) (hnot : p ∉ xs (w.slotFor timeout)) :
    ∃ e, DSeg w'.next w'.prev 0 (w'.slots (w.slotFor timeout)) (p :: xs (w.slotFor timeout)) 0 e := by
  have hi := slotFor_lt w timeout
  obtain ⟨e, he⟩ := W.links _ hi
  have hnd := W.nodup _ hi
  have hv := W.valid _ hi
  rw [L.slots, Function.update_self]
  cases hx : xs (w.slotFor timeout) with
  | nil =>
    rw [hx] at he
    exact ⟨p, rfl, L.prev, L.next.trans he.1, rfl⟩
  | cons x r =>
    rw [hx] at he hnd hv hnot
    have hsx : w.slots (w.slotFor timeout) = x := he.1
    have hx0 : w.slots (w.slotFor timeout) ≠ 0 := by
      rw [hsx]
      exact (hv x List.mem_cons_self).1
    refine ⟨e, DSeg.insert_front he L.next L.prev ?_ ?_ ?_⟩
    · rw [← hsx]
      exact L.head hx0
    · exact fun y hy => L.other_next y (ne_of_mem_of_not_mem hy hnot)
    · intro y hy
      apply L.other_prev y (ne_of_mem_of_not_mem (List.mem_cons_of_mem _ hy) hnot)
      rw [hsx]
      rintro rfl
      exact (List.nodup_cons.mp hnd).1 hy

/-- A timer added at the front of its slot. -/
theorem addTimer_spec {w : TimeWheel} {xs : ℕ → List Ptr} (W : Wheeled w xs) {p : Ptr}
    (h0 : p ≠ 0) (hl : w.mem.live p = false) {timeout : ℤ} (ht : 0 ≤ timeout) :
    Wheeled (w.addTimer p timeout).1
        (Function.update xs (w.slotFor timeout) (p :: xs (w.slotFor timeout))) ∧
      Frame (w.created p timeout) (w.addTimer p timeout).1 := by
  have hi := slotFor_lt w timeout
  have hnot : ∀ j < N, p ∉ xs j := by
    intro j hj hm
    have := (W.valid j hj p hm).2
    rw [hl] at this
    cases this
  have L : Linked w (w.addTimer p timeout).1 p timeout := by
    apply addTimer_linked h0 ht
    intro hs
    have hm := W.slot_mem hi hs
    exact ⟨fun he => hnot _ hi (he ▸ hm), W.valid _ hi _ hm⟩
  set ts := w.slotFor timeout with hts
  set g := w.created p timeout with hg
  have hlive : ∀ q, q ≠ p → g.mem.live q = w.mem.live q := fun q hq => Function.update_of_ne hq _ _
  have hgt : ∀ q, q ≠ p → g.timeSlot q = w.timeSlot q :=
    fun q hq => congrArg TwTimer.timeSlot (created_other w hq timeout)
  refine ⟨W.edit L.frame.curSlot ?_ ?_ ?_ ?_ ?_ ?_ ?_, L.frame⟩
  · intro j hji
    rw [L.slots, Function.update_of_ne hji]
  · exact L.front_links W (hnot ts hi)
  · exact List.nodup_cons.mpr ⟨hnot ts hi, W.nodup ts hi⟩
  · intro q hq
    rw [L.frame.timeSlot]
    rcases List.mem_cons.mp hq with rfl | hq
    · exact congrArg TwTimer.timeSlot (created_self w q timeout)
    · rw [hgt q fun he => hnot ts hi (he ▸ hq)]
      exact W.home ts hi q hq
  · intro q hq
    rw [L.frame.valid]
    rcases List.mem_cons.mp hq with rfl | hq
    · exact ⟨h0, Function.update_self _ _ _⟩
    · have hqp : q ≠ p := fun he => hnot ts hi (he ▸ hq)
      refine ⟨(W.valid ts hi q hq).1, ?_⟩
      rw [hlive q hqp]
      exact (W.valid ts hi q hq).2
  · rw [L.frame.faults]
    exact W.faults
  · intro j hj hji y hy
    have hyp : y ≠ p := fun he => hnot j hj (he ▸ hy)
    have hys : y ≠ w.slots ts := by
      rw [W.slot_eq hi]
      cases hx : xs ts with
      | nil => exact (W.valid j hj y hy).1
      | cons x r => exact W.apart hi hj hji (by rw [hx]; simp) hy
    refine ⟨⟨L.other_next y hyp, L.other_prev y hyp hys⟩, ?_, ?_⟩
    · rw [L.frame.timeSlot, hgt y hyp]
    · rw [L.frame.live, hlive y hyp]

/-- A write to a timer that leaves its links and its slot alone. -/
theorem Wheeled.modify {w : TimeWheel} {xs : ℕ → List Ptr} (W : Wheeled w xs) {p : Ptr}
    (hv : w.mem.Valid p) {f : TwTimer → TwTimer} (hn : (f (w.mem.cell p)).next = w.next p)
    (hp : (f (w.mem.cell p)).prev = w.prev p)
    (ht : (f (w.mem.cell p)).timeSlot = w.timeSlot p) :
    Wheeled { w with mem := w.mem.modify p f } xs := by
  have hnext : TimeWheel.next { w with mem := w.mem.modify p f } = w.next :=
    Mem.field_modify_of_eq w.mem p TwTimer.next f hn
  have hprev : TimeWheel.prev { w with mem := w.mem.modify p f } = w.prev :=
    Mem.field_modify_of_eq w.mem p TwTimer.prev f hp
  have hslot : TimeWheel.timeSlot { w with mem := w.mem.modify p f } = w.timeSlot :=
    Mem.field_modify_of_eq w.mem p TwTimer.timeSlot f ht
  refine ⟨W.cur_lt, ?_, W.nodup, ?_, ?_, (Mem.modify_faults hv _).trans W.faults⟩
  · rw [hnext, hprev]
    exact W.links
  · rw [hslot]
    exact W.home
  · unfold Mem.Valid
    rw [Mem.modify_live]
    exact W.valid

theorem setCall_spec {w : TimeWheel} {xs : ℕ → List Ptr} (W : Wheeled w xs) {p : Ptr}
    (hv : w.mem.Valid p) (c : Call) :
    Wheeled (w.setCall p c) xs ∧ (w.setCall p c).mem.live = w.mem.live ∧
      (w.setCall p c).rotation = w.rotation ∧
      ∀ q, ((w.setCall p c).mem.cell q).data =
        if q = p then (w.timeSlot p, c) else (w.mem.cell q).data := by
  refine ⟨W.modify hv rfl rfl rfl, Mem.modify_live _ _ _, Mem.field_modify_of_eq w.mem p
    TwTimer.rotation (fun t => { t with cbFunc := c.func, userData := c.arg }) rfl, ?_⟩
  intro q
  refine (congrFun (Mem.field_modify w.mem p TwTimer.data
    (fun t => { t with cbFunc := c.func, userData := c.arg })) q).trans ?_
  by_cases hq : q = p
  · rw [if_pos hq, hq, Function.update_self]
    rfl
  · rw [if_neg hq, Function.update_of_ne hq]

/-- `g` is the wheel behind `add_timer` and the caller's assignments to the timer `p`. -/
structure Added (w g : TimeWheel) (p : Ptr) (timeout : ℤ) (call : Call) : Prop where
  curSlot : g.curSlot = w.curSlot
  live : g.mem.live = Function.update w.mem.live p true
  rotation : g.rotation = Function.update w.rotation p (rotationFor timeout)
  data_self : (g.mem.cell p).data = (w.slotFor timeout, call)
  data : ∀ q, q ≠ p → (g.mem.cell q).data = (w.mem.cell q).data

theorem added_spec {w : TimeWheel} {xs : ℕ → List Ptr} (W : Wheeled w xs) {p : Ptr} (h0 : p ≠ 0)
    (hl : w.mem.live p = false) {timeout : ℤ} (ht : 0 ≤ timeout) (call : Call) :
    Wheeled ((w.addTimer p timeout).1.setCall p call)
        (Function.update xs (w.slotFor timeout) (p :: xs (w.slotFor timeout))) ∧
      Added w ((w.addTimer p timeout).1.setCall p call) p timeout call := by
  obtain ⟨W', hfr⟩ := addTimer_spec W h0 hl ht
  have hlive : (w.addTimer p timeout).1.mem.live = Function.update w.mem.live p true := hfr.live
  have hv : (w.addTimer p timeout).1.mem.Valid p := ⟨h0, by rw [hlive, Function.update_self]⟩
  obtain ⟨W'', hl', hr', hd'⟩ := setCall_spec W' hv call
  refine ⟨W'', hfr.curSlot, hl'.trans hlive, ?_, ?_, ?_⟩
  · rw [hr', hfr.rotation]
    funext q
    by_cases hq : q = p
    · rw [hq, Function.update_self]
      exact congrArg TwTimer.rotation (created_self w p timeout)
    · rw [Function.update_of_ne hq]
      exact congrArg TwTimer.rotation (created_other w hq timeout)
  · rw [hd', if_pos rfl, hfr.timeSlot]
    exact congrArg (fun t => (TwTimer.timeSlot t, call)) (created_self w p timeout)
  · intro q hq
    rw [hd', if_neg hq, hfr.data]
    exact congrArg TwTimer.data (created_other w hq timeout)

/-! ## tick -/

theorem Freed.refl (w : TimeWheel) : Freed w [] w := ⟨rfl, by simp, fun _ => rfl⟩

theorem Freed.trans {w w' w'' : TimeWheel} {ts us : List Ptr} (a : Freed w ts w')
    (b : Freed w' us w'') : Freed w (ts ++ us) w'' where
  curSlot := b.curSlot.trans a.curSlot
  live p := by rw [b.live, a.live, List.mem_append]; tauto
  data p := (b.data p).trans (a.data p)

/-- The step of `tick` at a timer of the current slot that fires. -/
theorem tickLoop_fire {w : TimeWheel} {xs : ℕ → List Ptr} (W : Wheeled w xs) {kept r : List Ptr}
    {x : Ptr} {fuel : ℕ} (hx : xs w.curSlot = kept ++ x :: r) (hrot : w.rotation x = 0)
    (hcb : (w.mem.cell x).cbFunc ≠ 0) :
    tickLoop (fuel + 1) w x =
      (tickLoop fuel ((w.unlinked w.curSlot x).delete x) (r.headD 0)).map fun q =>
        (q.1, (x, (w.mem.cell x).call) :: q.2) := by
  have hi := W.cur_lt
  obtain ⟨-, hfr, hvx, hnext⟩ := unlinked_spec W hi hx
  have hnx : w.next x = r.headD 0 := W.next_eq hi hx
  have hnd := W.nodup _ hi
  rw [hx] at hnd
  rw [tickLoop, if_neg hvx.1]
  simp only [deref_of_valid hvx, hrot, lt_irrefl, if_false, if_neg hcb, slot_of_lt hi]
  by_cases hps : x = w.slots w.curSlot
  · rw [if_pos hps, hnx]
    congr 2
    unfold unlinked dropHead
    rw [if_pos hps, hnx]
    by_cases h0 : r.headD 0 = 0
    · rw [if_pos h0, if_pos h0]
    · rw [if_neg h0, if_neg h0]
      have hv : ∀ y ∈ r, w.mem.Valid y := fun y hy => W.valid _ hi y (by rw [hx]; simp [hy])
      have hr : w.mem.Valid (r.headD 0) ∧ r.headD 0 ≠ x := by
        cases r with
        | nil => exact absurd rfl h0
        | cons y r =>
          refine ⟨hv y List.mem_cons_self, ?_⟩
          rintro rfl
          simp [List.nodup_append] at hnd
      rw [setSlot_of_lt _ hi]
      unfold setPrev delete
      dsimp only
      rw [Mem.modify_delete hvx hr.1 hr.2]
  · rw [if_neg hps]
    have hby : w.unlinked w.curSlot x = w.bypass x := by unfold unlinked; rw [if_neg hps]
    rw [hby] at hnext ⊢
    rw [hnext]

theorem decRotation_spec {w : TimeWheel} {xs : ℕ → List Ptr} (W : Wheeled w xs) {p : Ptr}
    (hv : w.mem.Valid p) :
    Wheeled (w.decRotation p) xs ∧ Freed w [] (w.decRotation p) ∧
      (w.decRotation p).rotation = Function.update w.rotation p (w.rotation p - 1) := by
  have hl : (w.decRotation p).mem.live = w.mem.live := Mem.modify_live _ _ _
  have hd := Mem.field_modify_of_eq w.mem p TwTimer.data
    (fun t => { t with rotation := t.rotation - 1 }) rfl
  refine ⟨W.modify hv rfl rfl rfl, ⟨rfl, fun q => ?_, congrFun hd⟩,
    Mem.field_modify w.mem p TwTimer.rotation (fun t => { t with rotation := t.rotation - 1 })⟩
  rw [hl]
  simp

/-- The walk through `todo` has deleted the timers with no rounds left and taken one round from the
others. -/
structure Walked (w : TimeWheel) (todo : List Ptr) (w' : TimeWheel) : Prop where
  freed : Freed w (todo.filter fun p => w.rotation p = 0) w'
  rotation : ∀ p, w'.rotation p = if p ∈ todo then w.rotation p - 1 else w.rotation p

theorem Walked.cons_keep {w g w' : TimeWheel} {x : Ptr} {todo : List Ptr} (hxt : x ∉ todo)
    (hrot : 0 < w.rotation x) (hfd : Freed w [] g)
    (hr : g.rotation = Function.update w.rotation x (w.rotation x - 1)) (h : Walked g todo w') :
    Walked w (x :: todo) w' := by
  have hfreed := h.freed
  have hz : todo.filter (fun p => decide (g.rotation p = 0)) =
      todo.filter fun p => decide (w.rotation p = 0) :=
    List.filter_congr fun p hp => by
      rw [hr, Function.update_of_ne (ne_of_mem_of_not_mem hp hxt)]
  rw [hz] at hfreed
  constructor
  · rw [List.filter_cons_of_neg (by simpa using hrot.ne')]
    exact hfd.trans hfreed
  · intro p
    rw [h.rotation, hr]
    by_cases hp : p = x
    · subst hp
      rw [if_neg hxt, if_pos List.mem_cons_self, Function.update_self]
    · rw [Function.update_of_ne hp]
      simp [hp]

theorem Walked.cons_fire {w g w' : TimeWheel} {x : Ptr} {todo : List Ptr} (hxt : x ∉ todo)
    (hz : w.rotation x = 0) (hfd : Freed w [x] g) (hr : g.rotation = w.rotation)
    (h : Walked g todo w') : Walked w (x :: todo) w' := by
  have hfreed := h.freed
  simp only [hr] at hfreed
  constructor
  · rw [List.filter_cons_of_pos (by simpa using hz)]
    exact hfd.trans hfreed
  · intro p
    rw [h.rotation, hr]
    by_cases hp : p = x
    · subst hp
      rw [if_neg hxt, if_pos List.mem_cons_self, hz]
    · simp [hp]

/-- The walk from `todo` on, with `kept` behind it: timers with rounds left lose one and stay, the
others fire and go. -/
theorem tickLoop_spec {w : TimeWheel} {xs : ℕ → List Ptr} (W : Wheeled w xs) {kept todo : List Ptr}
    {fuel : ℕ} (hx : xs w.curSlot = kept ++ todo) (hf : todo.length < fuel)
    (hcb : ∀ p ∈ todo, (w.mem.cell p).cbFunc ≠ 0) :
    ∃ w', tickLoop fuel w (todo.headD 0) =
        some (w', (todo.filter fun p => w.rotation p = 0).map fun p => (p, (w.mem.cell p).call)) ∧
      Wheeled w'
        (Function.update xs w.curSlot (kept ++ todo.filter fun p => 0 < w.rotation p)) ∧
      Walked w todo w' := by
  induction todo generalizing w xs kept fuel with
  | nil =>
    obtain ⟨fuel, rfl⟩ := Nat.exists_eq_succ_of_ne_zero (Nat.ne_zero_of_lt hf)
    refine ⟨w, by rw [tickLoop, List.headD_nil, if_pos rfl]; rfl, ?_, Freed.refl w, by simp⟩
    rw [List.filter_nil, ← hx, Function.update_eq_self]
    exact W
  | cons x todo ih =>
    obtain ⟨fuel, rfl⟩ := Nat.exists_eq_succ_of_ne_zero (Nat.ne_zero_of_lt hf)
    have hi := W.cur_lt
    have hnd := W.nodup _ hi
    rw [hx] at hnd
    have hxt : x ∉ todo := fun hm => by simp [List.nodup_append, hm] at hnd
    have hf' : todo.length < fuel := by simpa using hf
    have hvx : w.mem.Valid x := W.valid _ hi x (by rw [hx]; simp)
    rw [List.headD_cons]
    by_cases hrot : 0 < w.rotation x
    · obtain ⟨W', hfd, hr⟩ := decRotation_spec W hvx
      have hnx : w.next x = todo.headD 0 := W.next_eq hi hx
      have hrt : ∀ p ∈ todo, (w.decRotation x).rotation p = w.rotation p := by
        intro p hp
        rw [hr, Function.update_of_ne (ne_of_mem_of_not_mem hp hxt)]
      have hcall : ∀ p, ((w.decRotation x).mem.cell p).call = (w.mem.cell p).call :=
        fun p => congrArg Prod.snd (hfd.data p)
      have hx' : xs (w.decRotation x).curSlot = (kept ++ [x]) ++ todo := by
        rw [List.append_assoc]
        exact hx
      obtain ⟨w', hl', hW', hwalked⟩ := ih W' hx' hf' (fun p hp => by
        rw [show ((w.decRotation x).mem.cell p).cbFunc = (w.mem.cell p).cbFunc from
          congrArg Call.func (hcall p)]
        exact hcb p (List.mem_cons_of_mem _ hp))
      have hz : todo.filter (fun p => decide ((w.decRotation x).rotation p = 0)) =
          todo.filter fun p => decide (w.rotation p = 0) :=
        List.filter_congr fun p hp => by rw [hrt p hp]
      have hpos : todo.filter (fun p => decide (0 < (w.decRotation x).rotation p)) =
          todo.filter fun p => decide (0 < w.rotation p) :=
        List.filter_congr fun p hp => by rw [hrt p hp]
      simp only [hz, hcall] at hl'
      rw [hpos] at hW'
      refine ⟨w', ?_, ?_, hwalked.cons_keep hxt hrot hfd hr⟩
      · rw [tickLoop, if_neg hvx.1]
        simp only [deref_of_valid hvx, if_pos hrot, hnx]
        rw [hl', List.filter_cons_of_neg (by simpa using hrot.ne')]
      · rw [List.filter_cons_of_pos (by simpa using hrot)]
        have hcur : (w.decRotation x).curSlot = w.curSlot := rfl
        rw [hcur, List.append_assoc] at hW'
        exact hW'
    · have hz : w.rotation x = 0 := Nat.eq_zero_of_not_pos hrot
      rw [tickLoop_fire W hx hz (hcb x List.mem_cons_self)]
      obtain ⟨W', hfr, -, -⟩ := unlinked_spec W hi hx
      obtain ⟨hfd, hr⟩ := hfr.freed hvx.1
      set g := (w.unlinked w.curSlot x).delete x with hg
      have hcall : ∀ p, (g.mem.cell p).call = (w.mem.cell p).call :=
        fun p => congrArg Prod.snd (hfd.data p)
      have hx' : (Function.update xs w.curSlot (kept ++ todo)) g.curSlot = kept ++ todo := by
        rw [hfd.curSlot, Function.update_self]
      obtain ⟨w', hl', hW', hwalked⟩ := ih W' hx' hf' (fun p hp => by
        rw [show (g.mem.cell p).cbFunc = (w.mem.cell p).cbFunc from congrArg Call.func (hcall p)]
        exact hcb p (List.mem_cons_of_mem _ hp))
      simp only [hr, hcall] at hl'
      rw [hr, hfd.curSlot, Function.update_idem] at hW'
      refine ⟨w', ?_, ?_, hwalked.cons_fire hxt hz hfd hr⟩
      · rw [hl', List.filter_cons_of_pos (by simpa using hz)]
        rfl
      · rw [List.filter_cons_of_neg (by simpa using hrot)]
        exact hW'

/-- A tick passes through the current slot and moves on to the next. -/
theorem tick_spec {w : TimeWheel} {xs : ℕ → List Ptr} (W : Wheeled w xs) {fuel : ℕ}
    (hf : (xs w.curSlot).length < fuel)
    (hcb : ∀ p ∈ xs w.curSlot, (w.mem.cell p).cbFunc ≠ 0) :
    ∃ w', tick fuel w = some (w', ((xs w.curSlot).filter fun p => w.rotation p = 0).map
        fun p => (p, (w.mem.cell p).call)) ∧
      Wheeled w'
        (Function.update xs w.curSlot ((xs w.curSlot).filter fun p => 0 < w.rotation p)) ∧
      w'.curSlot = (w.curSlot + 1) % N ∧
      (∀ p, w'.mem.live p = true ↔
        w.mem.live p = true ∧ p ∉ (xs w.curSlot).filter fun p => w.rotation p = 0) ∧
      (∀ p, (w'.mem.cell p).data = (w.mem.cell p).data) ∧
      ∀ p, w'.rotation p = if p ∈ xs w.curSlot then w.rotation p - 1 else w.rotation p := by
  have hi := W.cur_lt
  obtain ⟨w', hl, W', hfd, hr⟩ := @tickLoop_spec w xs W [] (xs w.curSlot) fuel rfl hf hcb
  refine ⟨{ w' with curSlot := (w'.curSlot + 1) % N }, ?_, ?_, ?_, hfd.live, hfd.data, hr⟩
  · unfold tick
    rw [slot_of_lt hi, W.slot_eq hi, hl]
    rfl
  · exact ⟨Nat.mod_lt _ (by decide), W'.links, W'.nodup, W'.home, W'.valid, W'.faults⟩
  · show (w'.curSlot + 1) % N = _
    rw [hfd.curSlot]

end TimeWheel

end SocketTest.Timer
