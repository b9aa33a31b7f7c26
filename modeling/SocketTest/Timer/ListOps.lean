import SocketTest.Lib.LinkedList
import SocketTest.Timer.ListTimer

/-!
# What each operation does to a `sort_timer_lst`

`Linked l xs` says that `xs` are the timers of the list in the order of their links, both ways, and
that they are live objects. Each operation is then a function on `xs`:

- `add_timer` inserts behind the timers that expire no later (`List.orderedInsert` by `<`),
- `adjust_timer` removes the timer and inserts it again,
- `del_timer` erases it,
- `tick` drops the timers that are due from the front and invokes their callbacks.

The loops run once for each element of `xs` at most, so a bound above the length of `xs` is enough.
-/

namespace SocketTest.Timer

open SocketTest.Lib

/-- What a timer carries apart from its links. -/
def UtilTimer.data (t : UtilTimer) : ℤ × Call := (t.expire, t.call)

namespace SortTimerLst

/-! ## Field writes -/

section Writes

variable (l : SortTimerLst) (p q : Ptr)

@[simp] theorem setNext_next : (l.setNext p q).next = Function.update l.next p q :=
  Mem.field_modify l.mem p UtilTimer.next (fun t => { t with next := q })

@[simp] theorem setNext_prev : (l.setNext p q).prev = l.prev :=
  Mem.field_modify_of_eq l.mem p UtilTimer.prev (fun t => { t with next := q }) rfl

@[simp] theorem setPrev_prev : (l.setPrev p q).prev = Function.update l.prev p q :=
  Mem.field_modify l.mem p UtilTimer.prev (fun t => { t with prev := q })

@[simp] theorem setPrev_next : (l.setPrev p q).next = l.next :=
  Mem.field_modify_of_eq l.mem p UtilTimer.next (fun t => { t with prev := q }) rfl

@[simp] theorem delete_next : (l.delete p).next = l.next := by
  funext x; simp [delete, next]

@[simp] theorem delete_prev : (l.delete p).prev = l.prev := by
  funext x; simp [delete, prev]

@[simp] theorem setNext_live : (l.setNext p q).mem.live = l.mem.live := Mem.modify_live _ _ _
@[simp] theorem setPrev_live : (l.setPrev p q).mem.live = l.mem.live := Mem.modify_live _ _ _

@[simp] theorem setNext_data (x : Ptr) :
    ((l.setNext p q).mem.cell x).data = (l.mem.cell x).data :=
  congrFun (Mem.field_modify_of_eq l.mem p UtilTimer.data (fun t => { t with next := q }) rfl) x

@[simp] theorem setPrev_data (x : Ptr) :
    ((l.setPrev p q).mem.cell x).data = (l.mem.cell x).data :=
  congrFun (Mem.field_modify_of_eq l.mem p UtilTimer.data (fun t => { t with prev := q }) rfl) x

@[simp] theorem delete_data (x : Ptr) : ((l.delete p).mem.cell x).data = (l.mem.cell x).data := by
  simp [delete]

@[simp] theorem setNext_valid {x : Ptr} : (l.setNext p q).mem.Valid x ↔ l.mem.Valid x := by
  unfold Mem.Valid; rw [setNext_live]

@[simp] theorem setPrev_valid {x : Ptr} : (l.setPrev p q).mem.Valid x ↔ l.mem.Valid x := by
  unfold Mem.Valid; rw [setPrev_live]

variable {l p}

theorem deref_of_valid (h : l.mem.Valid p) : l.deref p = l := by
  unfold deref; rw [Mem.check_of_valid h]

theorem setNext_faults (h : l.mem.Valid p) : (l.setNext p q).mem.faults = l.mem.faults :=
  Mem.modify_faults h _

theorem setPrev_faults (h : l.mem.Valid p) : (l.setPrev p q).mem.faults = l.mem.faults :=
  Mem.modify_faults h _

end Writes

/-! ## Linked lists of timers -/

/-- `xs` are the timers of the list, live and distinct, linked both ways in this order. -/
structure Linked (l : SortTimerLst) (xs : List Ptr) : Prop where
  links : DSeg l.next l.prev 0 l.head xs 0 (if xs = [] then 0 else l.tail)
  nodup : xs.Nodup
  valid : ∀ p ∈ xs, l.mem.Valid p
  faults : l.mem.faults = []

/-- `l'` has the objects of `l`, and every timer its data. -/
structure Frame (l l' : SortTimerLst) : Prop where
  live : l'.mem.live = l.mem.live
  data : ∀ p, (l'.mem.cell p).data = (l.mem.cell p).data

theorem Frame.refl (l : SortTimerLst) : Frame l l := ⟨rfl, fun _ => rfl⟩

theorem Frame.trans {l l' l'' : SortTimerLst} (a : Frame l l') (b : Frame l' l'') : Frame l l'' :=
  ⟨b.live.trans a.live, fun p => (b.data p).trans (a.data p)⟩

theorem Frame.expire {l l' : SortTimerLst} (a : Frame l l') : l'.expire = l.expire :=
  funext fun p => congrArg Prod.fst (a.data p)

theorem Frame.valid {l l' : SortTimerLst} (a : Frame l l') {p : Ptr} :
    l'.mem.Valid p ↔ l.mem.Valid p := by unfold Mem.Valid; rw [a.live]

namespace Linked

variable {l : SortTimerLst} {xs : List Ptr} (h : Linked l xs)

include h

theorem ne_zero {p : Ptr} (hp : p ∈ xs) : p ≠ 0 := (h.valid p hp).1

theorem head_eq : l.head = xs.headD 0 := by
  cases xs with
  | nil => exact h.links.1
  | cons x xs => exact h.links.1

theorem tail_eq {ys : List Ptr} {a : Ptr} (hx : xs = ys ++ [a]) : l.tail = a := by
  subst hx
  have := h.links
  rw [if_neg (by simp)] at this
  exact (DSeg.last_eq this).1

theorem head_eq_zero : l.head = 0 ↔ xs = [] := by
  rw [h.head_eq]
  cases xs with
  | nil => simp
  | cons x xs => simpa using h.ne_zero List.mem_cons_self

theorem next_eq {ys r : List Ptr} {a : Ptr} (hx : xs = ys ++ a :: r) : l.next a = r.headD 0 := by
  subst hx
  exact (DSeg.links h.links).2

theorem prev_eq {ys r : List Ptr} {a : Ptr} (hx : xs = ys ++ a :: r) : l.prev a = ys.getLastD 0 := by
  subst hx
  exact (DSeg.links h.links).1

end Linked

/-! ## Insertion -/

/-- `timer` goes behind the timers that expire no later. -/
abbrev insertSorted (l : SortTimerLst) (timer : Ptr) (xs : List Ptr) : List Ptr :=
  xs.orderedInsert (fun s t => l.expire s < l.expire t) timer

/-- `t` linked in between `a` and `r`. -/
theorem Linked.insert {l l' : SortTimerLst} {ys r : List Ptr} {a t : Ptr}
    (h : Linked l (ys ++ [a] ++ r)) (hv : l.mem.Valid t) (ht : t ∉ ys ++ [a] ++ r)
    (hf : Frame l l') (hfl : l'.mem.faults = l.mem.faults) (hhead : l'.head = l.head)
    (htail : l'.tail = if r = [] then t else l.tail)
    (hn : l'.next = Function.update (Function.update l.next a t) t (r.headD 0))
    (hpt : l'.prev t = a) (hpr : r ≠ [] → l'.prev (r.headD 0) = t)
    (hp : ∀ y, y ≠ t → y ≠ r.headD 0 → l'.prev y = l.prev y) :
    Linked l' (ys ++ [a] ++ t :: r) := by
  have hnd := h.nodup
  have h0 : ∀ y ∈ ys ++ [a] ++ r, y ≠ 0 := fun y hy => h.ne_zero hy
  have hlast : r.headD 0 ∉ ys ++ [a] ∧ r.headD 0 ∉ r.tail := by
    cases r with
    | nil => exact ⟨fun hm => h0 0 (by simpa using hm) rfl, by simp⟩
    | cons x r => grind
  refine ⟨?_, ?_, ?_, by rw [hfl, h.faults]⟩
  · rw [if_neg (by simp), htail, hhead]
    have hna : l.next a = r.headD 0 := h.next_eq (List.append_assoc _ _ _)
    refine DSeg.insert h.links hna ?_ ?_ hpt ?_ hpr ?_ hlast.1 hlast.2 ?_
    · rw [hn, Function.update_of_ne (by grind), Function.update_self]
    · rw [hn, Function.update_self]
    · intro y hy
      rw [hn, Function.update_of_ne (by grind), Function.update_of_ne (by grind)]
    · exact fun y hy hne => hp y (by grind) hne
    · rw [if_neg (show ys ++ [a] ++ r ≠ [] by simp)]
  · grind
  · intro p hp
    rw [hf.valid]
    by_cases hpt' : p = t
    · rw [hpt']; exact hv
    · exact h.valid p (by grind)

/-- The private `add_timer(timer, lst_head)`, started at the element `a`. -/
theorem insertFrom_spec {l : SortTimerLst} {ys r : List Ptr} {a t : Ptr} {fuel : ℕ}
    (h : Linked l (ys ++ [a] ++ r)) (hv : l.mem.Valid t) (ht : t ∉ ys ++ [a] ++ r)
    (hf : r.length < fuel) :
    ∃ l', insertFrom fuel l t a = some l' ∧ Linked l' (ys ++ [a] ++ l.insertSorted t r) ∧
      Frame l l' := by
  obtain ⟨fuel, rfl⟩ := Nat.exists_eq_succ_of_ne_zero (Nat.ne_zero_of_lt hf)
  have ha : l.mem.Valid a := h.valid a (by simp)
  have hna : l.next a = r.headD 0 := h.next_eq (List.append_assoc _ _ _)
  induction r generalizing ys a fuel with
  | nil =>
    have hfr : Frame l { ((l.setNext a t).setPrev t a).setNext t 0 with tail := t } :=
      ⟨by simp, fun p => by simp⟩
    refine ⟨_, by rw [insertFrom]; simp only [hna, List.headD_nil, if_pos, deref_of_valid ha], ?_,
      hfr⟩
    refine h.insert hv ht hfr ?_ rfl rfl ?_ ?_ (fun hne => absurd rfl hne) ?_
    · show (((l.setNext a t).setPrev t a).setNext t 0).mem.faults = _
      rw [setNext_faults _ (by simpa using hv), setPrev_faults _ (by simpa using hv),
        setNext_faults _ ha]
    · show (((l.setNext a t).setPrev t a).setNext t 0).next = _
      simp
    · show (((l.setNext a t).setPrev t a).setNext t 0).prev t = a
      simp
    · intro y hy _
      show (((l.setNext a t).setPrev t a).setNext t 0).prev y = _
      simp [hy]
  | cons x r ih =>
    have hx : l.mem.Valid x := h.valid x (by simp)
    have hnx : l.next a = x := hna
    have hta : t ≠ a := by grind
    have htx : t ≠ x := by grind
    unfold insertFrom
    simp only [deref_of_valid ha, deref_of_valid hv, deref_of_valid hx, hnx, if_neg hx.1]
    by_cases hlt : l.expire t < l.expire x
    · rw [if_pos hlt]
      have hfr : Frame l ((((l.setNext a t).setNext t x).setPrev t a).setPrev x t) :=
        ⟨by simp, fun p => by simp⟩
      refine ⟨_, rfl, ?_, hfr⟩
      rw [insertSorted, List.orderedInsert, if_pos hlt]
      refine h.insert hv ht hfr ?_ rfl rfl ?_ ?_ (fun _ => ?_) ?_
      · rw [setPrev_faults _ (by simpa using hx), setPrev_faults _ (by simpa using hv),
          setNext_faults _ (by simpa using hv), setNext_faults _ ha]
      · simp
      · simp [htx]
      · simp
      · intro y hy hyx
        simp only [List.headD_cons] at hyx
        simp [hy, hyx]
    · rw [if_neg hlt]
      obtain ⟨fuel, rfl⟩ := Nat.exists_eq_succ_of_ne_zero (show fuel ≠ 0 by simp at hf; omega)
      have h' : Linked l (ys ++ [a] ++ [x] ++ r) := by simpa using h
      obtain ⟨l', hl', hL, hfr⟩ := @ih (ys ++ [a]) x h' (by simpa using ht) fuel
        (by simpa using hf) hx (h'.next_eq (List.append_assoc _ _ _))
      refine ⟨l', hl', ?_, hfr⟩
      rw [insertSorted, List.orderedInsert, if_neg hlt]
      simpa using hL

/-- `add_timer` on a timer whose links are still null. -/
theorem addTimer_spec {l : SortTimerLst} {xs : List Ptr} {t : Ptr} {fuel : ℕ} (h : Linked l xs)
    (hv : l.mem.Valid t) (ht : t ∉ xs) (hnt : l.next t = 0) (hpt : l.prev t = 0)
    (hf : xs.length ≤ fuel) :
    ∃ l', addTimer fuel l t = some l' ∧ Linked l' (l.insertSorted t xs) ∧ Frame l l' := by
  unfold addTimer
  rw [if_neg hv.1]
  cases xs with
  | nil =>
    rw [if_pos (h.head_eq_zero.mpr rfl)]
    refine ⟨_, rfl, ⟨?_, by simp, ?_, h.faults⟩, ⟨rfl, fun _ => rfl⟩⟩
    · exact DSeg.singleton.mpr ⟨rfl, hpt, hnt, rfl⟩
    · intro p hp
      rw [List.mem_singleton.mp hp]
      exact hv
  | cons x r =>
    have hx : l.head = x := h.head_eq
    have hvx : l.mem.Valid x := h.valid x List.mem_cons_self
    rw [hx, if_neg hvx.1]
    simp only [deref_of_valid hv, deref_of_valid hvx]
    by_cases hlt : l.expire t < l.expire x
    · rw [if_pos hlt]
      have htx : t ≠ x := fun he => ht (he ▸ List.mem_cons_self)
      have hfr : Frame l { (l.setNext t x).setPrev x t with head := t } :=
        ⟨by simp, fun p => by simp⟩
      refine ⟨_, rfl, ?_, hfr⟩
      rw [insertSorted, List.orderedInsert, if_pos hlt]
      refine ⟨?_, List.nodup_cons.mpr ⟨ht, h.nodup⟩, ?_, ?_⟩
      · show DSeg ((l.setNext t x).setPrev x t).next ((l.setNext t x).setPrev x t).prev 0 t _ 0 l.tail
        have hl := h.links
        rw [hx] at hl
        refine DSeg.insert_front hl ?_ ?_ ?_ ?_ ?_
        · simp
        · simpa [htx] using hpt
        · simp
        · intro y hy
          have hyt : y ≠ t := fun he => ht (he ▸ hy)
          simp [hyt]
        · intro y hy
          have hyx : y ≠ x := fun he => (List.nodup_cons.mp h.nodup).1 (he ▸ hy)
          simp [hyx]
      · intro p hp
        rw [hfr.valid]
        rcases List.mem_cons.mp hp with rfl | hp
        · exact hv
        · exact h.valid p hp
      · show ((l.setNext t x).setPrev x t).mem.faults = []
        rw [setPrev_faults _ (by simpa using hvx), setNext_faults _ hv, h.faults]
    · rw [if_neg hlt]
      obtain ⟨l', hl', hL, hfr⟩ := @insertFrom_spec l [] r x t fuel h hv ht hf
      refine ⟨l', hl', ?_, hfr⟩
      rw [insertSorted, List.orderedInsert, if_neg hlt]
      exact hL

/-! ## Removal -/

/-- `t` taken out from between `ys` and `r`. -/
theorem Linked.unlink {l l' : SortTimerLst} {ys r : List Ptr} {t : Ptr}
    (h : Linked l (ys ++ t :: r)) (hv : ∀ p ∈ ys ++ r, l'.mem.Valid p) (hfl : l'.mem.faults = [])
    (hhead : l'.head = if ys = [] then l.next t else l.head)
    (htail : ys ++ r ≠ [] → l'.tail = if r = [] then l.prev t else l.tail)
    (hn : ∀ y ∈ ys ++ r, y ≠ l.prev t → l'.next y = l.next y)
    (hna : ys ≠ [] → l'.next (l.prev t) = l.next t)
    (hp : ∀ y ∈ ys ++ r, y ≠ l.next t → l'.prev y = l.prev y)
    (hpx : r ≠ [] → l'.prev (l.next t) = l.prev t) : Linked l' (ys ++ r) := by
  have h0 : 0 ∉ ys ++ r := fun hm => (hv 0 hm).1 rfl
  have hnd := h.nodup
  refine ⟨?_, by grind, hv, hfl⟩
  have hu := DSeg.unlink h.links hnd h0 hn hna hp hpx
  rw [← hhead, if_neg (show ys ++ t :: r ≠ [] by simp)] at hu
  by_cases he : ys ++ r = []
  · obtain ⟨rfl, rfl⟩ := List.append_eq_nil_iff.mp he
    have hpt : l.prev t = 0 := h.prev_eq rfl
    rw [if_pos rfl, hpt] at hu
    exact hu
  · rw [if_neg he, htail he]
    exact hu

namespace Linked

variable {l : SortTimerLst} {ys r : List Ptr} {t : Ptr} (h : Linked l (ys ++ t :: r))

include h

theorem eq_head_iff : t = l.head ↔ ys = [] := by
  have hnd := h.nodup
  rw [h.head_eq]
  cases ys with
  | nil => simp
  | cons y ys => simp; grind

theorem eq_tail_iff : t = l.tail ↔ r = [] := by
  have hnd := h.nodup
  rcases List.eq_nil_or_concat r with rfl | ⟨r, b, rfl⟩
  · rw [h.tail_eq (rfl : ys ++ [t] = ys ++ [t])]
    simp
  · have hb : l.tail = b := @tail_eq _ _ h (ys ++ t :: r) b (by simp)
    rw [hb]
    simp; grind

theorem next_of_cons {x : Ptr} {r' : List Ptr} (hr : r = x :: r') : l.next t = x := by
  subst hr; exact h.next_eq rfl

theorem prev_of_concat {a : Ptr} {ys' : List Ptr} (hy : ys = ys' ++ [a]) : l.prev t = a := by
  subst hy; rw [h.prev_eq rfl]; simp

end Linked

/-- `l'` has the objects of `l` but for `ts`, and every timer its data. -/
structure Dropped (l : SortTimerLst) (ts : List Ptr) (l' : SortTimerLst) : Prop where
  live : ∀ p, l'.mem.live p = true ↔ l.mem.live p = true ∧ p ∉ ts
  data : ∀ p, (l'.mem.cell p).data = (l.mem.cell p).data

theorem Dropped.nil (l : SortTimerLst) : Dropped l [] l := ⟨by simp, fun _ => rfl⟩

theorem Dropped.cons {l l' l'' : SortTimerLst} {t : Ptr} {ts : List Ptr} (a : Dropped l [t] l')
    (b : Dropped l' ts l'') : Dropped l (t :: ts) l'' where
  live p := by rw [b.live, a.live]; simp; tauto
  data p := (b.data p).trans (a.data p)

theorem Frame.dropped {l l' : SortTimerLst} {t : Ptr} (hf : Frame l l') (h0 : t ≠ 0) :
    Dropped l [t] (l'.delete t) where
  live p := by
    show (l'.mem.delete t).live p = true ↔ _
    rw [Mem.delete_live h0, hf.live]
    by_cases hp : p = t
    · simp [hp]
    · simp [hp]
  data p := by rw [delete_data, hf.data]

theorem delete_faults {l : SortTimerLst} {t : Ptr} (hv : l.mem.Valid t) :
    (l.delete t).mem.faults = l.mem.faults := Mem.delete_faults hv

theorem Dropped.valid {l l' : SortTimerLst} {ts : List Ptr} (a : Dropped l ts l') {p : Ptr} :
    l'.mem.Valid p ↔ l.mem.Valid p ∧ p ∉ ts := by
  unfold Mem.Valid; rw [a.live]; tauto

/-- A write to the `next` of a timer outside the list, and the deletion of one. -/
theorem Linked.setNext_outside {l : SortTimerLst} {xs : List Ptr} {t : Ptr} (h : Linked l xs)
    (hv : l.mem.Valid t) (ht : t ∉ xs) (q : Ptr) : Linked (l.setNext t q) xs := by
  refine ⟨?_, h.nodup, fun p hp => (setNext_valid l t q).mpr (h.valid p hp), ?_⟩
  · refine h.links.congr (fun y hy => ?_) fun y _ => by rw [setNext_prev]
    have hyt : y ≠ t := fun he => ht (he ▸ hy)
    rw [setNext_next, Function.update_of_ne hyt]
  · rw [setNext_faults _ hv, h.faults]

theorem Linked.delete_outside {l : SortTimerLst} {xs : List Ptr} {t : Ptr} (h : Linked l xs)
    (hv : l.mem.Valid t) (ht : t ∉ xs) : Linked (l.delete t) xs := by
  have hd : Dropped l [t] (l.delete t) := (Frame.refl l).dropped hv.1
  refine ⟨?_, h.nodup, fun p hp => ?_, ?_⟩
  · exact h.links.congr (fun y _ => by rw [delete_next]) fun y _ => by rw [delete_prev]
  · rw [hd.valid]
    exact ⟨h.valid p hp, fun hm => ht (List.mem_singleton.mp hm ▸ hp)⟩
  · rw [delete_faults hv, h.faults]

section Unlinking

variable {l : SortTimerLst} {ys r : List Ptr} {t : Ptr} (h : Linked l (ys ++ t :: r))

include h

/-- `head = head->next; head->prev = NULL`. -/
theorem Linked.pop_head (hy : ys = []) (hr : r ≠ []) :
    Linked (({ l with head := l.next l.head } : SortTimerLst).setPrev (l.next l.head) 0) (ys ++ r) ∧
      Frame l (({ l with head := l.next l.head } : SortTimerLst).setPrev (l.next l.head) 0) := by
  have hnd := h.nodup
  obtain ⟨x, r', hxr⟩ := List.exists_cons_of_ne_nil hr
  have hhd : l.head = t := (h.eq_head_iff.mpr hy).symm
  have hnx : l.next t = x := h.next_of_cons hxr
  have hvx : l.mem.Valid x := h.valid x (by simp [hxr])
  have hpt : l.prev t = 0 := by rw [h.prev_eq rfl, hy]; rfl
  rw [hhd, hnx]
  set g : SortTimerLst := { l with head := x }
  have hfr : Frame l (g.setPrev x 0) := ⟨setPrev_live g _ _, fun p => setPrev_data g _ _ p⟩
  refine ⟨h.unlink ?_ ?_ ?_ ?_ ?_ ?_ ?_ ?_, hfr⟩
  · exact fun p hp => hfr.valid.mpr (h.valid p (by grind))
  · rw [setPrev_faults (l := g) _ hvx]
    exact h.faults
  · rw [if_pos hy, hnx]; rfl
  · rw [if_neg hr]; exact fun _ => rfl
  · intro y _ _
    rw [setPrev_next]
    rfl
  · exact fun hne => absurd hy hne
  · intro y _ hne
    rw [hnx] at hne
    rw [setPrev_prev, Function.update_of_ne hne]
    rfl
  · intro _
    rw [hnx, hpt, setPrev_prev, Function.update_self]

/-- `tail = tail->prev; tail->next = NULL`. -/
theorem Linked.pop_tail (hy : ys ≠ []) (hr : r = []) :
    Linked (({ l with tail := l.prev l.tail } : SortTimerLst).setNext (l.prev l.tail) 0) (ys ++ r) ∧
      Frame l (({ l with tail := l.prev l.tail } : SortTimerLst).setNext (l.prev l.tail) 0) := by
  obtain ⟨ys', a, hya⟩ : ∃ ys' a, ys = ys' ++ [a] := by
    rcases List.eq_nil_or_concat ys with hn | ⟨ys', a, hc⟩
    · exact absurd hn hy
    · exact ⟨ys', a, by rw [hc, List.concat_eq_append]⟩
  have htl : l.tail = t := (h.eq_tail_iff.mpr hr).symm
  have hpa : l.prev t = a := h.prev_of_concat hya
  have hva : l.mem.Valid a := h.valid a (by simp [hya])
  have hnt : l.next t = 0 := by rw [h.next_eq rfl, hr]; rfl
  rw [htl, hpa]
  set g : SortTimerLst := { l with tail := a }
  have hfr : Frame l (g.setNext a 0) := ⟨setNext_live g _ _, fun p => setNext_data g _ _ p⟩
  refine ⟨h.unlink ?_ ?_ ?_ ?_ ?_ ?_ ?_ ?_, hfr⟩
  · exact fun p hp => hfr.valid.mpr (h.valid p (by grind))
  · rw [setNext_faults (l := g) _ hva]
    exact h.faults
  · rw [if_neg hy]; rfl
  · rw [if_pos hr, hpa]; exact fun _ => rfl
  · intro y _ hne
    rw [hpa] at hne
    rw [setNext_next, Function.update_of_ne hne]
    rfl
  · intro _
    rw [hpa, hnt, setNext_next, Function.update_self]
  · intro y _ _
    rw [setNext_prev]
    rfl
  · exact fun hne => absurd hr hne

/-- `timer->prev->next = timer->next; timer->next->prev = timer->prev`, as the source reads the
links: the second statement after the first one's write. -/
def bypass (l : SortTimerLst) (t : Ptr) : SortTimerLst :=
  (l.setNext (l.prev t) (l.next t)).setPrev ((l.setNext (l.prev t) (l.next t)).next t)
    ((l.setNext (l.prev t) (l.next t)).prev t)

theorem Linked.bypass (hy : ys ≠ []) (hr : r ≠ []) :
    Linked (l.bypass t) (ys ++ r) ∧ Frame l (l.bypass t) ∧ (l.bypass t).next t = l.next t := by
  have hnd := h.nodup
  obtain ⟨ys', a, hya⟩ : ∃ ys' a, ys = ys' ++ [a] := by
    rcases List.eq_nil_or_concat ys with hn | ⟨ys', a, hc⟩
    · exact absurd hn hy
    · exact ⟨ys', a, by rw [hc, List.concat_eq_append]⟩
  obtain ⟨x, r', hxr⟩ := List.exists_cons_of_ne_nil hr
  have hnx : l.next t = x := h.next_of_cons hxr
  have hpa : l.prev t = a := h.prev_of_concat hya
  have hta : t ≠ a := by grind
  have hva : l.mem.Valid a := h.valid a (by simp [hya])
  have hvx : l.mem.Valid x := h.valid x (by simp [hxr])
  have hb : l.bypass t = (l.setNext a x).setPrev x a := by
    unfold SortTimerLst.bypass
    rw [hpa, hnx, setNext_next, setNext_prev, Function.update_of_ne hta, hnx, hpa]
  have hfr : Frame l (l.bypass t) := by rw [hb]; exact ⟨by simp, fun p => by simp⟩
  refine ⟨h.unlink ?_ ?_ ?_ ?_ ?_ ?_ ?_ ?_, hfr, ?_⟩
  · exact fun p hp => hfr.valid.mpr (h.valid p (by grind))
  · rw [hb, setPrev_faults _ (by simpa using hvx), setNext_faults _ hva, h.faults]
  · rw [if_neg hy]; rfl
  · rw [if_neg hr]; exact fun _ => rfl
  · intro y _ hne
    rw [hpa] at hne
    rw [hb, setPrev_next, setNext_next, Function.update_of_ne hne]
  · intro _
    rw [hb, hpa, hnx, setPrev_next, setNext_next, Function.update_self]
  · intro y _ hne
    rw [hnx] at hne
    rw [hb, setPrev_prev, setNext_prev, Function.update_of_ne hne]
  · intro _
    rw [hb, hpa, hnx, setPrev_prev, Function.update_self]
  · rw [hb, setPrev_next, setNext_next, Function.update_of_ne hta]

theorem delTimer_spec : Linked (l.delTimer t) (ys ++ r) ∧ Dropped l [t] (l.delTimer t) := by
  have hvt : l.mem.Valid t := h.valid t (by simp)
  have hnd := h.nodup
  have hout : t ∉ ys ++ r := by grind
  unfold delTimer
  rw [if_neg hvt.1]
  by_cases hy : ys = [] <;> by_cases hr : r = []
  · rw [if_pos ⟨h.eq_head_iff.mpr hy, h.eq_tail_iff.mpr hr⟩]
    have hd : Dropped l [t] (l.delete t) := (Frame.refl l).dropped hvt.1
    subst hy hr
    exact ⟨⟨⟨rfl, rfl⟩, List.nodup_nil, by simp, (delete_faults hvt).trans h.faults⟩, hd.1, hd.2⟩
  · rw [if_neg fun hc => hr (h.eq_tail_iff.mp hc.2), if_pos (h.eq_head_iff.mpr hy)]
    have hhd : l.mem.Valid l.head := h.eq_head_iff.mpr hy ▸ hvt
    rw [deref_of_valid hhd]
    obtain ⟨hL, hfr⟩ := h.pop_head hy hr
    exact ⟨hL.delete_outside (hfr.valid.mpr hvt) hout, hfr.dropped hvt.1⟩
  · rw [if_neg fun hc => hy (h.eq_head_iff.mp hc.1), if_neg fun hc => hy (h.eq_head_iff.mp hc),
      if_pos (h.eq_tail_iff.mpr hr)]
    have htl : l.mem.Valid l.tail := h.eq_tail_iff.mpr hr ▸ hvt
    rw [deref_of_valid htl]
    obtain ⟨hL, hfr⟩ := h.pop_tail hy hr
    exact ⟨hL.delete_outside (hfr.valid.mpr hvt) hout, hfr.dropped hvt.1⟩
  · rw [if_neg fun hc => hy (h.eq_head_iff.mp hc.1), if_neg fun hc => hy (h.eq_head_iff.mp hc),
      if_neg fun hc => hr (h.eq_tail_iff.mp hc), deref_of_valid hvt]
    obtain ⟨hL, hfr, -⟩ := h.bypass hy hr
    exact ⟨hL.delete_outside (hfr.valid.mpr hvt) hout, hfr.dropped hvt.1⟩

/-! ## Adjustment -/

/-- `adjust_timer` moves `t` behind those of its successors that expire no later. -/
theorem adjustTimer_spec {fuel : ℕ} (hf : r.length < fuel) :
    ∃ l', adjustTimer fuel l t = some l' ∧ Linked l' (ys ++ l.insertSorted t r) ∧ Frame l l' := by
  have hvt : l.mem.Valid t := h.valid t (by simp)
  have hnd := h.nodup
  have hout : t ∉ ys ++ r := by grind
  unfold adjustTimer
  simp only [deref_of_valid hvt]
  rw [if_neg hvt.1]
  cases r with
  | nil =>
    have hnx : l.next t = 0 := h.next_eq rfl
    rw [hnx, if_pos rfl]
    exact ⟨l, rfl, h, .refl l⟩
  | cons x r =>
    have hnx : l.next t = x := h.next_eq rfl
    have hvx : l.mem.Valid x := h.valid x (by simp)
    rw [hnx, if_neg hvx.1, deref_of_valid hvx]
    by_cases hlt : l.expire t < l.expire x
    · rw [if_pos hlt]
      refine ⟨l, rfl, ?_, .refl l⟩
      rw [insertSorted, List.orderedInsert, if_pos hlt]
      exact h
    · rw [if_neg hlt, insertSorted, List.orderedInsert, if_neg hlt]
      have key : ∀ {g : SortTimerLst}, Frame l g → Linked g (ys ++ x :: r) →
          ∃ l', insertFrom fuel g t x = some l' ∧
            Linked l' (ys ++ x :: l.insertSorted t r) ∧ Frame l l' := by
        intro g hg hL
        obtain ⟨l', hl', hL', hfr⟩ := @insertFrom_spec g ys r x t fuel (by simpa using hL)
          (hg.valid.mpr hvt) (by simpa using hout) (by simp at hf; omega)
        refine ⟨l', hl', ?_, hg.trans hfr⟩
        unfold insertSorted at hL'
        rw [hg.expire] at hL'
        simpa using hL'
      by_cases hy : ys = []
      · have hhd : l.head = t := (h.eq_head_iff.mpr hy).symm
        obtain ⟨hL, hfr⟩ := h.pop_head hy (List.cons_ne_nil x r)
        rw [if_pos hhd.symm, deref_of_valid (hhd.symm ▸ hvt)]
        rw [hhd, hnx] at hL hfr ⊢
        refine key (hfr.trans ⟨setNext_live _ _ _, fun p => setNext_data _ _ _ p⟩) ?_
        exact hL.setNext_outside (hfr.valid.mpr hvt) hout 0
      · rw [if_neg fun hc => hy (h.eq_head_iff.mp hc)]
        obtain ⟨hL, hfr, hn⟩ := h.bypass hy (List.cons_ne_nil x r)
        rw [hnx] at hn
        unfold SortTimerLst.bypass at hL hfr hn
        rw [hnx] at hL hfr hn
        rw [hn]
        exact key hfr hL

end Unlinking

section Extending

variable {l : SortTimerLst} {t : Ptr}

theorem setExpire_live (e : ℤ) : (l.setExpire t e).mem.live = l.mem.live := Mem.modify_live _ _ _

theorem setExpire_next (e : ℤ) : (l.setExpire t e).next = l.next :=
  Mem.field_modify_of_eq l.mem t UtilTimer.next (fun t => { t with expire := e }) rfl

theorem setExpire_prev (e : ℤ) : (l.setExpire t e).prev = l.prev :=
  Mem.field_modify_of_eq l.mem t UtilTimer.prev (fun t => { t with expire := e }) rfl

theorem setExpire_expire (e : ℤ) : (l.setExpire t e).expire = Function.update l.expire t e :=
  Mem.field_modify l.mem t UtilTimer.expire (fun t => { t with expire := e })

theorem setExpire_data (e : ℤ) (p : Ptr) : ((l.setExpire t e).mem.cell p).data =
    if p = t then (e, (l.mem.cell p).call) else (l.mem.cell p).data := by
  refine (congrFun (Mem.field_modify l.mem t UtilTimer.data (fun t => { t with expire := e })) p).trans ?_
  by_cases hp : p = t
  · rw [if_pos hp, hp, Function.update_self]; rfl
  · rw [if_neg hp, Function.update_of_ne hp]

theorem Linked.setExpire {xs : List Ptr} (h : Linked l xs) (hv : l.mem.Valid t) (e : ℤ) :
    Linked (l.setExpire t e) xs := by
  refine ⟨?_, h.nodup, fun p hp => ?_, ?_⟩
  · rw [setExpire_next, setExpire_prev]
    exact h.links
  · unfold Mem.Valid
    rw [setExpire_live]
    exact h.valid p hp
  · exact (Mem.modify_faults hv _).trans h.faults

end Extending

/-! ## tick -/

/-- The timers at the front that are due at `cur`. -/
def dueFront (l : SortTimerLst) (cur : ℤ) (xs : List Ptr) : List Ptr :=
  xs.takeWhile fun p => decide (l.expire p ≤ cur)

/-- The timers behind them. -/
def notDue (l : SortTimerLst) (cur : ℤ) (xs : List Ptr) : List Ptr :=
  xs.dropWhile fun p => decide (l.expire p ≤ cur)

/-- One round of `tick` removes a due head. -/
theorem Linked.round {l : SortTimerLst} {x : Ptr} {r : List Ptr} (h : Linked l (x :: r)) :
    let g : SortTimerLst := { l with head := l.next x }
    let g' := (if g.head = 0 then g else g.setPrev g.head 0).delete x
    Linked g' r ∧ Dropped l [x] g' := by
  intro g g'
  have hvx : l.mem.Valid x := h.valid x List.mem_cons_self
  have hx : l.head = x := h.head_eq
  have hnx : l.next x = r.headD 0 := @Linked.next_eq l _ h [] r x rfl
  cases r with
  | nil =>
    have hn0 : l.next x = 0 := hnx
    have hg : g' = g.delete x := by
      show (if l.next x = 0 then g else _).delete x = _
      rw [if_pos hn0]
    have hfr : Frame l g := ⟨rfl, fun _ => rfl⟩
    rw [hg]
    refine ⟨⟨⟨hn0, rfl⟩, List.nodup_nil, by simp, ?_⟩, hfr.dropped hvx.1⟩
    rw [delete_faults (l := g) hvx]
    exact h.faults
  | cons y r =>
    have hy0 : l.next x ≠ 0 := by rw [hnx]; exact (h.valid y (by simp)).1
    obtain ⟨hL, hfr⟩ := @Linked.pop_head l [] (y :: r) x h rfl (List.cons_ne_nil y r)
    rw [hx] at hL hfr
    have hg : g' = (g.setPrev (l.next x) 0).delete x := by
      show (if l.next x = 0 then g else _).delete x = _
      rw [if_neg hy0]
    rw [hg]
    exact ⟨hL.delete_outside (hfr.valid.mpr hvx) (List.nodup_cons.mp h.nodup).1,
      hfr.dropped hvx.1⟩

theorem tickLoop_spec {l : SortTimerLst} {xs : List Ptr} {cur : ℤ} {fuel : ℕ} (h : Linked l xs)
    (hcb : ∀ p ∈ xs, (l.mem.cell p).cbFunc ≠ 0) (hf : xs.length < fuel) :
    ∃ l', tickLoop fuel l cur l.head =
        some (l', (l.dueFront cur xs).map fun p => (l.mem.cell p).call) ∧
      Linked l' (l.notDue cur xs) ∧ Dropped l (l.dueFront cur xs) l' := by
  induction xs generalizing l fuel with
  | nil =>
    obtain ⟨fuel, rfl⟩ := Nat.exists_eq_succ_of_ne_zero (Nat.ne_zero_of_lt hf)
    rw [tickLoop, if_pos (h.head_eq_zero.mpr rfl)]
    exact ⟨l, rfl, h, .nil l⟩
  | cons x r ih =>
    obtain ⟨fuel, rfl⟩ := Nat.exists_eq_succ_of_ne_zero (Nat.ne_zero_of_lt hf)
    have hx : l.head = x := h.head_eq
    have hvx : l.mem.Valid x := h.valid x List.mem_cons_self
    have hnx : l.next x = r.headD 0 := @Linked.next_eq l _ h [] r x rfl
    rw [hx, tickLoop, if_neg hvx.1]
    simp only [deref_of_valid hvx]
    by_cases hlt : cur < l.expire x
    · have hd : ¬ l.expire x ≤ cur := not_le.mpr hlt
      rw [if_pos hlt]
      refine ⟨l, ?_, ?_, ?_⟩
      · simp [dueFront, hd]
      · simpa [notDue, hd] using h
      · simpa [dueFront, hd] using Dropped.nil l
    · have hd : l.expire x ≤ cur := not_lt.mp hlt
      rw [if_neg hlt, if_neg (hcb x List.mem_cons_self)]
      obtain ⟨hL, hdr⟩ := h.round
      have hdata := hdr.data
      set g : SortTimerLst := { l with head := l.next x }
      set g' := (if g.head = 0 then g else g.setPrev g.head 0).delete x with hg'
      have hcall : ∀ p, (g'.mem.cell p).call = (l.mem.cell p).call :=
        fun p => congrArg Prod.snd (hdata p)
      have hexp : g'.expire = l.expire := funext fun p => congrArg Prod.fst (hdata p)
      obtain ⟨l', hl', hL', hd'⟩ := @ih g' fuel hL
        (fun p hp => by
          rw [show (g'.mem.cell p).cbFunc = (l.mem.cell p).cbFunc from
            congrArg Call.func (hcall p)]
          exact hcb p (List.mem_cons_of_mem _ hp))
        (by simpa using hf)
      simp only [dueFront, notDue, hexp, hcall] at hl' hL' hd'
      have hdue : l.dueFront cur (x :: r) = x :: l.dueFront cur r := by simp [dueFront, hd]
      rw [hdue]
      refine ⟨l', ?_, ?_, hdr.cons hd'⟩
      · show Option.map _ (tickLoop fuel g' cur g'.head) = _
        rw [hl']
        rfl
      · simpa [notDue, hd] using hL'

theorem tick_spec {l : SortTimerLst} {xs : List Ptr} {cur : ℤ} {fuel : ℕ} (h : Linked l xs)
    (hcb : ∀ p ∈ xs, (l.mem.cell p).cbFunc ≠ 0) (hf : xs.length < fuel) :
    ∃ l', tick fuel l cur = some (l', (l.dueFront cur xs).map fun p => (l.mem.cell p).call) ∧
      Linked l' (l.notDue cur xs) ∧ Dropped l (l.dueFront cur xs) l' := by
  unfold tick
  by_cases he : l.head = 0
  · rw [if_pos he]
    have hx : xs = [] := h.head_eq_zero.mp he
    subst hx
    exact ⟨l, rfl, h, .nil l⟩
  · rw [if_neg he]
    exact tickLoop_spec h hcb hf

end SortTimerLst

end SocketTest.Timer
