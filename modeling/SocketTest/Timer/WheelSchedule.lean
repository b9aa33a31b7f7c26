import SocketTest.Timer.Containers
import SocketTest.Timer.Countdown

/-!
# The wheel and the list, ticked together

A wheel advances by one tick at a time; a sorted list looks at a clock. When the clock advances by
one with every tick and a timer is put into the list with the number of the tick on which the wheel
fires it, the two hold the same timers. The table lists them from the newest to the oldest: a slot of
the wheel holds its part of the table in this order, and the list fires the timers of one tick in the
opposite order.
-/

namespace SocketTest.Timer

open SocketTest.Lib

/-! ## The list holds the table -/

/-- The schedule holds the timers of the table, the newest first. -/
structure Listed (s : Schedule) (ps : List Pending) : Prop where
  mem_iff : ∀ t, (s.entry t).isSome ↔ t ∈ ps.map Pending.l
  entry : ∀ p ∈ ps, ∃ n < s.time, s.entry p.l = some ⟨p.expire, p.call, n⟩
  newest : ps.Pairwise fun p q => s.since q.l < s.since p.l

namespace Listed

variable {s : Schedule} {ps : List Pending} (L : Listed s ps)

include L

theorem inj {p q : Pending} (hp : p ∈ ps) (hq : q ∈ ps) (he : p.l = q.l) : p = q := by
  have hnd : (ps.map Pending.l).Nodup := by
    refine List.pairwise_map.mpr (L.newest.imp ?_)
    intro a b hab he
    rw [he] at hab
    exact lt_irrefl _ hab
  exact List.inj_on_of_nodup_map hnd hp hq he

theorem since_lt {p : Pending} (hp : p ∈ ps) : s.since p.l < s.time := by
  obtain ⟨n, hn, he⟩ := L.entry p hp
  unfold Schedule.since
  rw [he]
  exact hn

/-- The timers that are left, when the others are taken out of the schedule. -/
theorem drop {s' : Schedule} {P : Pending → Bool} (ht : s'.time = s.time)
    (hin : ∀ p ∈ ps, P p = true → s'.entry p.l = s.entry p.l)
    (hout : ∀ p ∈ ps, P p = false → s'.entry p.l = none)
    (hnone : ∀ t, s.entry t = none → s'.entry t = none) : Listed s' (ps.filter P) where
  mem_iff t := by
    constructor
    · intro hs
      have hs' : (s.entry t).isSome := by
        rw [← Option.ne_none_iff_isSome] at hs ⊢
        exact fun h => hs (hnone t h)
      obtain ⟨p, hp, rfl⟩ := List.mem_map.mp ((L.mem_iff t).mp hs')
      refine List.mem_map_of_mem (List.mem_filter.mpr ⟨hp, ?_⟩)
      by_contra hP
      rw [hout p hp (by simpa using hP)] at hs
      cases hs
    · intro hm
      obtain ⟨p, hp, rfl⟩ := List.mem_map.mp hm
      obtain ⟨hp, hP⟩ := List.mem_filter.mp hp
      rw [hin p hp hP]
      exact (L.mem_iff _).mpr (List.mem_map_of_mem hp)
  entry p hp := by
    obtain ⟨hp, hP⟩ := List.mem_filter.mp hp
    obtain ⟨n, hn, he⟩ := L.entry p hp
    exact ⟨n, ht.symm ▸ hn, (hin p hp hP).trans he⟩
  newest := by
    refine (L.newest.filter P).imp_of_mem ?_
    intro p q hp hq hpq
    obtain ⟨hp, hP⟩ := List.mem_filter.mp hp
    obtain ⟨hq, hQ⟩ := List.mem_filter.mp hq
    unfold Schedule.since at hpq ⊢
    rwa [hin p hp hP, hin q hq hQ]

/-- `p` is the newest timer; an older one with its address is replaced. -/
theorem put (p : Pending) :
    Listed (s.put p.l p.expire p.call) (p :: ps.filter fun q => q.l ≠ p.l) := by
  have hself : (s.put p.l p.expire p.call).entry p.l = some ⟨p.expire, p.call, s.time⟩ :=
    Function.update_self _ _ _
  have hother : ∀ t, t ≠ p.l → (s.put p.l p.expire p.call).entry t = s.entry t :=
    fun t ht => Function.update_of_ne ht _ _
  have hne : ∀ q ∈ ps.filter fun q => q.l ≠ p.l, q ∈ ps ∧ q.l ≠ p.l := fun q hq => by
    simpa using List.mem_filter.mp hq
  constructor
  · intro t
    rw [List.map_cons, List.mem_cons]
    by_cases ht : t = p.l
    · rw [ht, hself]
      simp
    · rw [hother t ht, L.mem_iff]
      constructor
      · intro hm
        obtain ⟨q, hq, rfl⟩ := List.mem_map.mp hm
        exact Or.inr (List.mem_map_of_mem (List.mem_filter.mpr ⟨hq, by simpa using ht⟩))
      · rintro (h | hm)
        · exact absurd h ht
        · obtain ⟨q, hq, rfl⟩ := List.mem_map.mp hm
          exact List.mem_map_of_mem (hne q hq).1
  · intro q hq
    rcases List.mem_cons.mp hq with rfl | hq
    · exact ⟨s.time, Nat.lt_succ_self _, hself⟩
    · obtain ⟨hq, hql⟩ := hne q hq
      obtain ⟨n, hn, he⟩ := L.entry q hq
      exact ⟨n, hn.trans (Nat.lt_succ_self _), (hother _ hql).trans he⟩
  · refine List.pairwise_cons.mpr ⟨fun q hq => ?_, ?_⟩
    · obtain ⟨hq, hql⟩ := hne q hq
      rw [SortTimerLst.since_put, Function.update_self, Function.update_of_ne hql]
      exact L.since_lt hq
    · refine (L.newest.filter _).imp_of_mem ?_
      intro a b ha hb hab
      rw [SortTimerLst.since_put, Function.update_of_ne (hne a ha).2, Function.update_of_ne (hne b hb).2]
      exact hab

/-- `p` is a timer the list has not seen. -/
theorem put_new {p : Pending} (hp : s.entry p.l = none) :
    Listed (s.put p.l p.expire p.call) (p :: ps) := by
  have hkeep : (ps.filter fun q => q.l ≠ p.l) = ps := by
    refine List.filter_eq_self.mpr fun q hq => ?_
    have hne : q.l ≠ p.l := by
      intro he
      obtain ⟨n, -, hq'⟩ := L.entry q hq
      rw [he, hp] at hq'
      cases hq'
    simpa using hne
  have L' := L.put p
  rwa [hkeep] at L'

/-- `p` takes the place of `q`. -/
theorem put_old {p q : Pending} (hq : q ∈ ps) (he : p.l = q.l) :
    Listed (s.put p.l p.expire p.call) (p :: ps.filter fun r => r ≠ q) := by
  have hfilter : (ps.filter fun r => r.l ≠ p.l) = ps.filter fun r => r ≠ q := by
    refine List.filter_congr fun r hr => ?_
    have hiff : r.l = q.l ↔ r = q := ⟨L.inj hr hq, fun h => congrArg Pending.l h⟩
    simp only [ne_eq, he, hiff]
  have L' := L.put p
  rwa [hfilter] at L'

theorem del {p : Pending} (hp : p ∈ ps) :
    Listed (s.step (.del p.l)) (ps.filter fun q => q ≠ p) := by
  refine L.drop rfl ?_ ?_ ?_
  · intro q hq hqp
    refine Function.update_of_ne (fun h => ?_) _ _
    exact absurd (L.inj hq hp h) (by simpa using hqp)
  · intro q hq hqp
    obtain rfl : q = p := by simpa using hqp
    exact Function.update_self _ _ _
  · intro u hu
    by_cases hup : u = p.l
    · exact hup ▸ Function.update_self _ _ _
    · exact (Function.update_of_ne hup _ _).trans hu

theorem tick (cur : ℤ) : Listed (s.step (.tick cur)) (ps.filter fun q => cur < q.expire) := by
  have hentry : ∀ q ∈ ps, (s.step (.tick cur)).entry q.l =
      if cur < q.expire then s.entry q.l else none := by
    intro q hq
    obtain ⟨k, -, he⟩ := L.entry q hq
    show (s.entry q.l).filter _ = _
    rw [he]
    by_cases hlt : cur < q.expire
    · simp [Option.filter, hlt]
    · simp [Option.filter, hlt]
  refine L.drop rfl ?_ ?_ ?_
  · exact fun q hq hlt => (hentry q hq).trans (if_pos (by simpa using hlt))
  · exact fun q hq hlt => (hentry q hq).trans (if_neg (by simpa using hlt))
  · intro u hu
    show (s.entry u).filter _ = none
    rw [hu]
    rfl

/-- The timers due at `cur`, when all expire at once: the list has them from the oldest on. -/
theorem due {memL : Mem UtilTimer} {l : SortTimerLst} {xs : List Ptr}
    (R : SortTimerLst.Refines memL s l xs) {cur : ℤ} (hcur : ∀ p ∈ ps, cur ≤ p.expire) :
    ((xs.filter fun t => decide (l.expire t ≤ cur)).map fun t => (l.mem.cell t).call) =
      ((ps.filter fun p => p.expire = cur).map Pending.call).reverse := by
  have hexp : ∀ p ∈ ps, l.expire p.l = p.expire := by
    intro p hp
    obtain ⟨n, -, he⟩ := L.entry p hp
    exact R.expire_eq he
  have hcall : ∀ p ∈ ps, (l.mem.cell p.l).call = p.call := by
    intro p hp
    obtain ⟨n, -, he⟩ := L.entry p hp
    exact R.call_eq he
  set ds := (ps.filter fun p => p.expire = cur) with hds
  have hsub : ∀ p ∈ ds, p ∈ ps ∧ p.expire = cur := fun p hp => by simpa using List.mem_filter.mp hp
  have hmem : ∀ t, t ∈ xs ↔ t ∈ ps.map Pending.l := fun t => (R.mem_iff t).trans (L.mem_iff t)
  -- both are sorted by the time of insertion
  have hleft : (xs.filter fun t => decide (l.expire t ≤ cur)).Pairwise
      fun a b => s.since a < s.since b := by
    refine (R.sorted.filter _).imp_of_mem ?_
    intro a b ha hb hab
    obtain ⟨ha, hae⟩ := List.mem_filter.mp ha
    obtain ⟨hb, hbe⟩ := List.mem_filter.mp hb
    obtain ⟨p, hp, rfl⟩ := List.mem_map.mp ((hmem a).mp ha)
    obtain ⟨q, hq, rfl⟩ := List.mem_map.mp ((hmem b).mp hb)
    have hpe := hexp p hp
    have hqe := hexp q hq
    have hple := hcur p hp
    have hqle := hcur q hq
    simp only [decide_eq_true_eq] at hae hbe
    rcases hab with hlt | ⟨-, hlt⟩
    · omega
    · exact hlt
  have hright : (ds.map Pending.l).reverse.Pairwise fun a b => s.since a < s.since b :=
    List.pairwise_reverse.mpr (List.pairwise_map.mpr (L.newest.filter _))
  have hperm : (xs.filter fun t => decide (l.expire t ≤ cur)).Perm (ds.map Pending.l).reverse := by
    refine (List.perm_ext_iff_of_nodup (R.linked.nodup.filter _) ?_).mpr fun t => ?_
    · exact hright.imp fun hab he => absurd hab (by rw [he]; exact lt_irrefl _)
    · rw [List.mem_reverse, List.mem_filter, hmem, decide_eq_true_eq]
      constructor
      · rintro ⟨hm, hle⟩
        obtain ⟨p, hp, rfl⟩ := List.mem_map.mp hm
        rw [hexp p hp] at hle
        exact List.mem_map_of_mem (List.mem_filter.mpr
          ⟨hp, by simpa using le_antisymm hle (hcur p hp)⟩)
      · intro hm
        obtain ⟨p, hp, rfl⟩ := List.mem_map.mp hm
        obtain ⟨hp, he⟩ := hsub p hp
        exact ⟨List.mem_map_of_mem hp, by rw [hexp p hp, he]⟩
  have heq := hperm.eq_of_pairwise
    (fun a b _ _ hab hba => absurd (hab.trans hba) (lt_irrefl _)) hleft hright
  rw [heq, List.map_reverse, List.map_map]
  exact congrArg List.reverse (List.map_congr_left fun p hp => hcall p (hsub p hp).1)

end Listed

/-! ## The wheel holds the table -/

namespace TimeWheel

theorem Wheeled.unique {w : TimeWheel} {xs ys : ℕ → List Ptr} (X : Wheeled w xs) (Y : Wheeled w ys)
    {i : ℕ} (hi : i < N) : xs i = ys i := by
  obtain ⟨e, hx⟩ := X.links i hi
  obtain ⟨e', hy⟩ := Y.links i hi
  exact hx.forward.unique hy.forward (fun h => (X.valid i hi 0 h).1 rfl)
    fun h => (Y.valid i hi 0 h).1 rfl

theorem Counts.congr {s : Countdown} {w : TimeWheel} {xs ys : ℕ → List Ptr} (C : Counts s w xs)
    (h : ∀ i < N, ys i = xs i) : Counts s w ys where
  wheeled := by
    have W := C.wheeled
    refine ⟨W.cur_lt, ?_, ?_, ?_, ?_, W.faults⟩
    · exact fun i hi => h i hi ▸ W.links i hi
    · exact fun i hi => h i hi ▸ W.nodup i hi
    · exact fun i hi => h i hi ▸ W.home i hi
    · exact fun i hi => h i hi ▸ W.valid i hi
  mem_iff p := by
    rw [← C.mem_iff]
    refine exists_congr fun i => and_congr_right fun hi => ?_
    rw [h i hi]
  live := C.live
  entry := C.entry

/-- The timers of the table that belong to slot `i`. -/
def part (w : TimeWheel) (ps : List Pending) (i : ℕ) : List Ptr :=
  (ps.filter fun p => w.timeSlot p.h = i).map Pending.h

/-- After `now` ticks the wheel holds the timers of the table, each with the ticks left to its
expiry, and the newest of a slot in front. -/
structure Turned (s : Countdown) (now : ℕ) (w : TimeWheel) (ps : List Pending) : Prop where
  counts : Counts s w (w.part ps)
  nodup : (ps.map Pending.h).Nodup
  entry : ∀ p ∈ ps, ∃ k, s p.h = some (k, p.call) ∧ p.expire = now + k

namespace Turned

variable {s : Countdown} {now : ℕ} {w : TimeWheel} {ps : List Pending} {p : Pending}
  (T : Turned s now w ps)

include T

theorem inj {q : Pending} (hp : p ∈ ps) (hq : q ∈ ps) (he : p.h = q.h) : p = q :=
  List.inj_on_of_nodup_map T.nodup hp hq he

theorem isSome (hp : p ∈ ps) : (s p.h).isSome := by
  obtain ⟨k, hk, -⟩ := T.entry p hp
  rw [hk]
  rfl

theorem expire_eq (hp : p ∈ ps) : p.expire = now + w.remaining p.h := by
  obtain ⟨k, hk, he⟩ := T.entry p hp
  have hr : k = w.remaining p.h := congrArg Prod.fst (T.counts.entry p.h _ hk).1
  rw [he, hr]

theorem call_eq (hp : p ∈ ps) : (w.mem.cell p.h).call = p.call := by
  obtain ⟨k, hk, -⟩ := T.entry p hp
  exact (congrArg Prod.snd (T.counts.entry p.h _ hk).1).symm

theorem called (hp : p ∈ ps) : p.call.func ≠ 0 := by
  obtain ⟨k, hk, -⟩ := T.entry p hp
  exact (T.counts.entry p.h _ hk).2

omit T in
theorem mem_part (hp : p ∈ ps) {i : ℕ} : p.h ∈ w.part ps i ↔ w.timeSlot p.h = i := by
  unfold part
  rw [List.mem_map]
  constructor
  · rintro ⟨q, hq, he⟩
    obtain ⟨-, hi⟩ := List.mem_filter.mp hq
    rw [he] at hi
    simpa using hi
  · intro hi
    exact ⟨p, List.mem_filter.mpr ⟨hp, by simpa using hi⟩, rfl⟩

/-- The next tick fires a timer exactly when it finds it in the current slot with no round left. -/
theorem due_iff (hp : p ∈ ps) :
    p.expire = now + 1 ↔ w.timeSlot p.h = w.curSlot ∧ w.rotation p.h = 0 := by
  rw [T.expire_eq hp, ← mem_part hp, ← T.counts.remaining_eq_one (T.isSome hp)]
  omega

theorem later (hp : p ∈ ps) : (now + 1 : ℤ) ≤ p.expire := by
  have h : 0 < w.remaining p.h := Nat.succ_pos _
  rw [T.expire_eq hp]
  omega

theorem add {timeout : ℤ} (ha : (WheelOp.add p.h timeout p.call).Allowed w)
    (he : p.expire = now + delay timeout) :
    Turned (s.step (.add p.h timeout p.call)) now
      ((w.addTimer p.h timeout).1.setCall p.h p.call) (p :: ps) := by
  have C := add_counts T.counts ha
  obtain ⟨⟨h0, hl⟩, ht, -⟩ := ha
  obtain ⟨-, A⟩ := added_spec T.counts.wheeled h0 hl ht p.call
  set g := (w.addTimer p.h timeout).1.setCall p.h p.call with hg
  have hfresh : ∀ q ∈ ps, q.h ≠ p.h := by
    intro q hq hqp
    have := (T.counts.live q.h).mpr (T.isSome hq)
    rw [hqp, hl] at this
    cases this
  have hnew : g.timeSlot p.h = w.slotFor timeout := congrArg Prod.fst A.data_self
  have hold : ∀ q ∈ ps, g.timeSlot q.h = w.timeSlot q.h := fun q hq =>
    congrArg Prod.fst (A.data q.h (hfresh q hq))
  refine ⟨C.congr fun i _ => ?_, ?_, ?_⟩
  · have hps : g.part ps i = w.part ps i := congrArg (List.map Pending.h)
      (List.filter_congr fun q hq => by rw [hold q hq])
    by_cases hi : w.slotFor timeout = i
    · subst hi
      rw [Function.update_self, ← hps]
      unfold part
      rw [List.filter_cons_of_pos (by simpa using hnew)]
      rfl
    · rw [Function.update_of_ne (Ne.symm hi), ← hps]
      unfold part
      rw [List.filter_cons_of_neg (by simpa [hnew] using hi)]
  · rw [List.map_cons]
    refine List.nodup_cons.mpr ⟨fun hm => ?_, T.nodup⟩
    obtain ⟨q, hq, hqp⟩ := List.mem_map.mp hm
    exact hfresh q hq hqp
  · intro q hq
    rcases List.mem_cons.mp hq with rfl | hq
    · exact ⟨delay timeout, Function.update_self _ _ _, he⟩
    · obtain ⟨k, hk, hke⟩ := T.entry q hq
      exact ⟨k, (Function.update_of_ne (hfresh q hq) _ _).trans hk, hke⟩

theorem del (hp : p ∈ ps) :
    Turned (s.step (.del p.h)) now (w.delTimer p.h) (ps.filter fun q => q ≠ p) := by
  obtain ⟨hi, hm⟩ := T.counts.home (T.isSome hp)
  have hvalid : w.mem.Valid p.h := T.counts.wheeled.valid _ hi _ hm
  obtain ⟨xs', C', -⟩ := del_counts T.counts hvalid
  obtain ⟨ys, r, hx⟩ := List.append_of_mem hm
  obtain ⟨W, hfd, -⟩ := delTimer_spec T.counts.wheeled hi hx
  have hslot : ∀ q, (w.delTimer p.h).timeSlot q = w.timeSlot q := fun q =>
    congrArg Prod.fst (hfd.data q)
  have hne : ∀ q ∈ ps, (q ≠ p ↔ q.h ≠ p.h) := fun q hq =>
    not_congr ⟨fun h => congrArg Pending.h h, T.inj hq hp⟩
  -- what is left in a slot, read off the table
  have hpart : ∀ j, (w.delTimer p.h).part (ps.filter fun q => q ≠ p) j =
      (w.part ps j).filter fun t => t ≠ p.h := by
    intro j
    unfold part
    rw [List.filter_map, List.filter_filter, List.filter_filter]
    refine congrArg (List.map Pending.h) (List.filter_congr fun q hq => ?_)
    have := hne q hq
    rw [hslot]
    simp only [Function.comp_apply, this, Bool.and_comm]
  have hnd := T.counts.wheeled.nodup _ hi
  refine ⟨C'.congr fun j hj => ?_, ?_, ?_⟩
  · rw [C'.wheeled.unique W hj, hpart]
    by_cases hji : j = w.timeSlot p.h
    · subst hji
      rw [Function.update_self, hx]
      rw [hx] at hnd
      have hn := (List.nodup_middle.mp hnd)
      have hpn := (List.nodup_cons.mp hn).1
      have hkeep : ∀ t ∈ ys ++ r, t ≠ p.h := fun t ht he => hpn (he ▸ ht)
      rw [List.filter_append, List.filter_cons_of_neg (by simp), ← List.filter_append]
      exact List.filter_eq_self.mpr fun t ht => by simpa using hkeep t ht
    · rw [Function.update_of_ne hji]
      refine List.filter_eq_self.mpr fun t ht => ?_
      have : t ≠ p.h := by
        rintro rfl
        exact hji ((mem_part hp).mp ht).symm
      simpa using this
  · exact T.nodup.sublist (List.filter_sublist.map _)
  · intro q hq
    obtain ⟨hq, hqp⟩ := List.mem_filter.mp hq
    have hqp : q ≠ p := by simpa using hqp
    obtain ⟨k, hk, hke⟩ := T.entry q hq
    exact ⟨k, (Function.update_of_ne ((hne q hq).mp hqp) _ _).trans hk, hke⟩

/-- A tick fires the timers due in the order of the table. -/
theorem tick {fuel : ℕ} (hf : ps.length < fuel) :
    ∃ w', w.tick fuel = some (w', (ps.filter fun p => p.expire = (now + 1 : ℤ)).map
        fun p => (p.h, p.call)) ∧
      Turned (s.step .tick) (now + 1) w' (ps.filter fun p => (now + 1 : ℤ) < p.expire) := by
  have C := T.counts
  have hlen : (w.part ps w.curSlot).length < fuel := by
    unfold part
    rw [List.length_map]
    exact (List.length_filter_le _ _).trans_lt hf
  obtain ⟨w', ht, W', -, -, hdata, -⟩ :=
    tick_spec C.wheeled hlen fun p hp => C.cbFunc_ne C.wheeled.cur_lt hp
  obtain ⟨w'', fired, xs', ht', C', -, -⟩ := tick_counts C hlen
  obtain ⟨rfl, -⟩ := Prod.mk.inj (Option.some.inj (ht.symm.trans ht'))
  have hslot : ∀ q, w'.timeSlot q = w.timeSlot q := fun q => congrArg Prod.fst (hdata q)
  have hdue : ((w.part ps w.curSlot).filter fun p => w.rotation p = 0) =
      (ps.filter fun p => p.expire = (now + 1 : ℤ)).map Pending.h := by
    unfold part
    rw [List.filter_map, List.filter_filter]
    refine congrArg (List.map Pending.h) (List.filter_congr fun p hp => ?_)
    have := T.due_iff hp
    simp only [Function.comp_apply, this, Bool.decide_and, Bool.and_comm]
  refine ⟨w', ?_, C'.congr fun j hj => ?_, ?_, ?_⟩
  · rw [ht, hdue, List.map_map]
    refine congrArg (fun fs => some (w', fs)) (List.map_congr_left fun p hp => ?_)
    show (p.h, (w.mem.cell p.h).call) = _
    rw [T.call_eq (List.mem_of_mem_filter hp)]
  · rw [C'.wheeled.unique W' hj]
    have hnot : ∀ p ∈ ps, ((now + 1 : ℤ) < p.expire ↔
        ¬ (w.timeSlot p.h = w.curSlot ∧ w.rotation p.h = 0)) := by
      intro p hp
      have hle := T.later hp
      rw [← T.due_iff hp]
      omega
    by_cases hjc : j = w.curSlot
    · subst hjc
      rw [Function.update_self]
      unfold part
      rw [List.filter_map, List.filter_filter, List.filter_filter]
      refine congrArg (List.map Pending.h) (List.filter_congr fun p hp => ?_)
      have := hnot p hp
      by_cases hs : w.timeSlot p.h = w.curSlot
      · simp [hslot, hs, this, Nat.pos_iff_ne_zero]
      · simp [hslot, hs]
    · rw [Function.update_of_ne hjc]
      unfold part
      rw [List.filter_filter]
      refine congrArg (List.map Pending.h) (List.filter_congr fun p hp => ?_)
      have := hnot p hp
      by_cases hs : w.timeSlot p.h = j
      · simp [hslot, hs, this, hjc]
      · simp [hslot, hs]
  · exact T.nodup.sublist (List.filter_sublist.map _)
  · intro p hp
    obtain ⟨hp, hlt⟩ := List.mem_filter.mp hp
    obtain ⟨k, hk, hke⟩ := T.entry p hp
    have hlt : (now + 1 : ℤ) < p.expire := by simpa using hlt
    refine ⟨k - 1, ?_, by push_cast; omega⟩
    show (s p.h).bind _ = _
    rw [hk, Option.bind_some, if_neg (by dsimp only; omega)]

end Turned

end TimeWheel

/-! ## Both containers -/

/-- A list and a wheel, the table their client keeps and the number of ticks so far. -/
structure Twin where
  pending : List Pending
  now : ℕ
  lst : SortTimerLst
  wheel : TimeWheel

/-- An operation on both. The wheel has no `adjust_timer`: a restart deletes the timer and adds
another one. -/
inductive TwinOp
  | start (l h : Ptr) (timeout : ℤ) (call : Call)
  | restart (p : Pending) (h : Ptr) (timeout : ℤ)
  | cancel (p : Pending)
  | tick

/-- `start` takes new objects, a timeout that is not negative and a callback; `restart` does not
make a timer expire earlier. -/
def TwinOp.Allowed (c : Twin) : TwinOp → Prop
  | start l h timeout call => (l ≠ 0 ∧ c.lst.mem.live l = false) ∧
      (h ≠ 0 ∧ c.wheel.mem.live h = false) ∧ 0 ≤ timeout ∧ call.func ≠ 0
  | restart p h timeout => p ∈ c.pending ∧
      (h ≠ 0 ∧ (c.wheel.delTimer p.h).mem.live h = false) ∧ 0 ≤ timeout ∧
      p.expire ≤ c.now + delay timeout
  | cancel p => p ∈ c.pending
  | tick => True

instance TwinOp.decidableAllowed (c : Twin) (op : TwinOp) : Decidable (op.Allowed c) := by
  cases op <;> unfold TwinOp.Allowed <;> infer_instance

namespace Twin

/-- An operation on both, with the callbacks the list invokes and those the wheel invokes. The list
expires a timer on the tick on which the wheel fires it. -/
def exec (fuel : ℕ) (c : Twin) : TwinOp → Option (Twin × List Call × List Call)
  | .start l h timeout call => do
    let (lst, lc) ← c.lst.exec fuel (.add l (c.now + delay timeout) call.func call.arg)
    let (wheel, wc) ← c.wheel.exec fuel (.add h timeout call)
    some (⟨⟨l, h, c.now + delay timeout, call⟩ :: c.pending, c.now, lst, wheel⟩,
      lc, wc.map Prod.snd)
  | .restart p h timeout => do
    let (lst, lc) ← c.lst.exec fuel (.adjust p.l (c.now + delay timeout))
    let (w, wc) ← c.wheel.exec fuel (.del p.h)
    let (wheel, wc') ← w.exec fuel (.add h timeout p.call)
    some (⟨⟨p.l, h, c.now + delay timeout, p.call⟩ :: c.pending.filter fun q => q ≠ p, c.now, lst,
      wheel⟩, lc, (wc ++ wc').map Prod.snd)
  | .cancel p => do
    let (lst, lc) ← c.lst.exec fuel (.del p.l)
    let (wheel, wc) ← c.wheel.exec fuel (.del p.h)
    some (⟨c.pending.filter fun q => q ≠ p, c.now, lst, wheel⟩, lc, wc.map Prod.snd)
  | .tick => do
    let (lst, lc) ← c.lst.exec fuel (.tick (c.now + 1))
    let (wheel, wc) ← c.wheel.exec fuel .tick
    some (⟨c.pending.filter fun p => (c.now + 1 : ℤ) < p.expire, c.now + 1, lst, wheel⟩, lc,
      wc.map Prod.snd)

/-- The callbacks of the timers of the table due on the next tick, the newest timer first. -/
def due (c : Twin) : TwinOp → List Call
  | .tick => (c.pending.filter fun p => p.expire = (c.now + 1 : ℤ)).map Pending.call
  | _ => []

def init (memL : Mem UtilTimer) (memW : Mem TwTimer) : Twin := ⟨[], 0, .init memL, .init memW⟩

/-- Both hold the table. -/
def Agrees (memL : Mem UtilTimer) (n : ℕ) (c : Twin) : Prop :=
  ∃ s xs t, SortTimerLst.Refines memL s c.lst xs ∧ Listed s c.pending ∧
    TimeWheel.Turned t c.now c.wheel c.pending ∧ xs.length ≤ n ∧ c.pending.length ≤ n

end Twin

def TwinStep (fuel : ℕ) (c : Twin) (a : TwinOp × List Call × List Call) (c' : Twin) : Prop :=
  a.1.Allowed c ∧ c.exec fuel a.1 = some (c', a.2)

/-- Every allowed operation terminates and keeps the two containers together. -/
theorem Twin.Agrees.exec {memL : Mem UtilTimer} {n fuel : ℕ} {c : Twin} {op : TwinOp}
    (A : Agrees memL n c) (hn : n < fuel) (ha : op.Allowed c) :
    ∃ c', c.exec fuel op = some (c', (c.due op).reverse, c.due op) ∧ Agrees memL (n + 1) c' := by
  obtain ⟨s, xs, t, R, L, T, hx, hp⟩ := A
  cases op with
  | start l h timeout call =>
    obtain ⟨⟨hl0, hl⟩, hh, ht, hc⟩ := ha
    have hfree : memL.live l = false ∧ s.entry l = none := by
      have := (R.live l).not
      simpa [hl] using this
    obtain ⟨l', xs', hex, R', hlen⟩ :=
      @SortTimerLst.add_refines memL s c.lst xs l fuel R (c.now + delay timeout) call.func call.arg
        ⟨⟨hl0, hfree.1, hfree.2⟩, hc⟩ (hx.trans hn.le)
    have L' := @Listed.put_new _ _ L ⟨l, h, c.now + delay timeout, call⟩ hfree.2
    have T' := @TimeWheel.Turned.add _ _ _ _ ⟨l, h, c.now + delay timeout, call⟩ T timeout
      ⟨hh, ht, hc⟩ rfl
    refine ⟨_, by rw [Twin.exec, hex]; rfl, _, xs', _, R', L', T', by omega, ?_⟩
    exact Nat.succ_le_succ hp
  | restart p h timeout =>
    obtain ⟨hpm, hh, ht, hle⟩ := ha
    obtain ⟨k, -, he⟩ := L.entry p hpm
    obtain ⟨l', xs', hex, R', hlen⟩ :=
      @SortTimerLst.adjust_refines memL s c.lst xs p.l fuel R (c.now + delay timeout)
        ⟨_, he, hle⟩ (hx.trans hn.le)
    have hstep : s.step (.adjust p.l (c.now + delay timeout)) =
        s.put p.l (c.now + delay timeout) p.call := by
      show s.put p.l _ _ = _
      rw [he]
      rfl
    rw [hstep] at R'
    have L' := @Listed.put_old _ _ L ⟨p.l, h, c.now + delay timeout, p.call⟩ p hpm rfl
    have hc : p.call.func ≠ 0 := T.called hpm
    have T' := @TimeWheel.Turned.add _ _ _ _ ⟨p.l, h, c.now + delay timeout, p.call⟩ (T.del hpm)
      timeout ⟨hh, ht, hc⟩ rfl
    refine ⟨_, by rw [Twin.exec, hex]; rfl, _, xs', _, R', L', T', by omega, ?_⟩
    exact Nat.succ_le_succ ((List.length_filter_le _ _).trans hp)
  | cancel p =>
    have hpm : p ∈ c.pending := ha
    obtain ⟨k, -, he⟩ := L.entry p hpm
    obtain ⟨l', xs', hex, R', hlen⟩ :=
      @SortTimerLst.del_refines memL s c.lst xs p.l fuel R (by show (s.entry p.l).isSome; rw [he]; rfl)
    refine ⟨_, by rw [Twin.exec, hex]; rfl, _, xs', _, R', L.del hpm, T.del hpm, by omega, ?_⟩
    exact ((List.length_filter_le _ _).trans hp).trans n.le_succ
  | tick =>
    obtain ⟨l', xs', hex, R', hlen⟩ :=
      @SortTimerLst.tick_refines memL s c.lst xs fuel R (c.now + 1) (hx.trans_lt hn)
    rw [L.due R fun q hq => T.later hq] at hex
    obtain ⟨w', htick, T'⟩ := T.tick (hp.trans_lt hn)
    have hwheel : c.wheel.exec fuel .tick = _ := htick
    refine ⟨⟨_, c.now + 1, l', w'⟩, ?_, _, xs', _, R', L.tick _, T', by omega, ?_⟩
    · rw [Twin.exec, hex, hwheel]
      show some (_, _, List.map _ (List.map _ _)) = _
      rw [List.map_map]
      rfl
    · exact ((List.length_filter_le _ _).trans hp).trans n.le_succ

theorem Twin.agrees_of_run {memL : Mem UtilTimer} {memW : Mem TwTimer} {fuel : ℕ} {c : Twin}
    {as : List (TwinOp × List Call × List Call)} (hL : memL.faults = [])
    (hl : ∀ p, memW.live p = false) (hW : memW.faults = [])
    (hr : Run (TwinStep fuel) (.init memL memW) as c) (hn : as.length < fuel) :
    Agrees memL as.length c := by
  refine hr.history (fun as c => as.length < fuel → Agrees memL as.length c) (fun _ => ?_) ?_ hn
  · exact ⟨.empty, [], fun _ => none, .init hL, ⟨fun t => by simp [Schedule.empty, init], nofun,
      List.Pairwise.nil⟩, ⟨TimeWheel.init_counts hl hW, List.nodup_nil, nofun⟩, le_rfl, le_rfl⟩
  · rintro as c a c' ih ⟨ha, hex⟩ hlen
    rw [List.length_append, List.length_singleton] at hlen ⊢
    obtain ⟨c'', hex', A'⟩ := (ih (by omega)).exec (by omega : as.length < fuel) ha
    obtain ⟨rfl, -⟩ := Prod.mk.inj (Option.some.inj (hex.symm.trans hex'))
    exact A'

/-- **The wheel and the list are interchangeable.** Both are started, restarted, cancelled and
ticked together. In every state reached each allowed operation terminates in both, and neither has
faulted. Every step invokes the callbacks due in the state before it, the wheel from the newest timer
on and the list from the oldest. -/
theorem wheel_reverses_list {memL : Mem UtilTimer} {memW : Mem TwTimer} {fuel : ℕ} {c : Twin}
    {as : List (TwinOp × List Call × List Call)} (hL : memL.faults = [])
    (hl : ∀ p, memW.live p = false) (hW : memW.faults = [])
    (hr : Run (TwinStep fuel) (.init memL memW) as c) (hn : as.length < fuel) :
    (∀ op : TwinOp, op.Allowed c → ∃ c' lc wc, c.exec fuel op = some (c', lc, wc)) ∧
      c.lst.mem.faults = [] ∧ c.wheel.mem.faults = [] ∧
      ∀ u op lc wc v, as = u ++ (op, lc, wc) :: v →
        ∃ c₁, Run (TwinStep fuel) (.init memL memW) u c₁ ∧ wc = c₁.due op ∧ lc = wc.reverse := by
  have A := Twin.agrees_of_run hL hl hW hr hn
  refine ⟨fun op ha => ?_, ?_, ?_, ?_⟩
  · obtain ⟨c', hex, -⟩ := A.exec hn ha
    exact ⟨c', _, _, hex⟩
  · obtain ⟨s, xs, t, R, -⟩ := A
    exact R.linked.faults
  · obtain ⟨s, xs, t, -, -, T, -⟩ := A
    exact T.counts.wheeled.faults
  · rintro u op lc wc v rfl
    obtain ⟨c₁, hu, hv⟩ := hr.split
    refine ⟨c₁, hu, ?_⟩
    rw [List.length_append] at hn
    cases hv with
    | cons hs _ =>
      obtain ⟨ha, hex⟩ := hs
      obtain ⟨c', hex', -⟩ :=
        (Twin.agrees_of_run hL hl hW hu (by omega)).exec (by omega : u.length < fuel) ha
      obtain ⟨-, heq⟩ := Prod.mk.inj (Option.some.inj (hex.symm.trans hex'))
      obtain ⟨hlc, hwc⟩ := Prod.mk.inj heq
      exact ⟨hwc, by rw [hlc, hwc]⟩

/-- Two timers due on one tick. -/
theorem wheel_reverses_list_two :
    let as : List (TwinOp × List Call × List Call) :=
      [(.start 8 8 0 ⟨1, 0⟩, [], []), (.start 16 16 1 ⟨1, 1⟩, [], []), (.tick, [], []),
        (.tick, [⟨1, 0⟩, ⟨1, 1⟩], [⟨1, 1⟩, ⟨1, 0⟩])]
    ∃ c, Run (TwinStep 5) (.init (Mem.blank (.fresh 0 0 0)) (Mem.blank ⟨0, 0, 0, 0, 0, 0⟩)) as c ∧
      c.lst.mem.faults = [] ∧ c.wheel.mem.faults = [] ∧
      ([⟨1, 0⟩, ⟨1, 1⟩] : List Call) = ([⟨1, 1⟩, ⟨1, 0⟩] : List Call).reverse := by
  intro as
  have hr : Run (TwinStep 5)
      (.init (Mem.blank (.fresh 0 0 0)) (Mem.blank ⟨0, 0, 0, 0, 0, 0⟩)) as _ :=
    .cons ⟨by decide, rfl⟩ (.cons ⟨by decide, rfl⟩ (.cons ⟨trivial, rfl⟩
      (.cons ⟨trivial, rfl⟩ (.nil _))))
  obtain ⟨-, hL, hW, hall⟩ :=
    wheel_reverses_list rfl (fun _ => rfl) rfl hr (Nat.lt_succ_self 4)
  obtain ⟨c₁, -, -, hrev⟩ := hall (as.take 3) .tick _ _ [] rfl
  exact ⟨_, hr, hL, hW, hrev⟩

end SocketTest.Timer
