import SocketTest.Timer.ListRuns
import SocketTest.Timer.MinHeapActive

/-!
# The list and the heap as timer containers

A client of either container has a table of pending timers. `Holds` says that a container holds
this table: its timers are those of the table and carry their data. The two containers are run side
by side, each timer being one object in the list and one in the heap; both hold the same table after
every operation, so a tick fires the same timers in both.
-/

namespace SocketTest.Timer

open SocketTest.Lib

/-- A pending timer: its object in the list, its object in the heap, and its data. -/
structure Pending where
  l : Ptr
  h : Ptr
  expire : ℤ
  call : Call
  deriving DecidableEq, Repr

/-! ## A container holds a table -/

/-- The timers `ts`, whose data `d` reads, are those of the table. -/
structure Holds (adr : Pending → Ptr) (ts : List Ptr) (d : Ptr → ℤ × Call) (ps : List Pending) :
    Prop where
  perm : ts.Perm (ps.map adr)
  data : ∀ p ∈ ps, d (adr p) = (p.expire, p.call)

/-- A permutation of the images is the image of a permutation. -/
theorem exists_perm_of_perm_map {α β : Type*} {f : α → β} {ps : List α} {ts : List β}
    (h : ts.Perm (ps.map f)) : ∃ qs : List α, qs.Perm ps ∧ ts = qs.map f := by
  induction ps generalizing ts with
  | nil => exact ⟨[], List.Perm.refl _, List.perm_nil.mp h⟩
  | cons p ps ih =>
    obtain ⟨u, v, rfl⟩ := List.append_of_mem (h.symm.subset List.mem_cons_self)
    have h' : (u ++ v).Perm (ps.map f) := (List.perm_middle.symm.trans h).cons_inv
    obtain ⟨qs, hq, huv⟩ := ih h'
    obtain ⟨a, b, rfl, rfl, rfl⟩ := List.append_eq_map_iff.mp huv
    refine ⟨a ++ p :: b, ?_, by simp⟩
    exact List.perm_middle.trans (hq.cons p)

namespace Holds

variable {adr : Pending → Ptr} {ts ts' : List Ptr} {d d' : Ptr → ℤ × Call} {ps : List Pending}
  {p : Pending} (H : Holds adr ts d ps)

include H

theorem mem (hp : p ∈ ps) : adr p ∈ ts := H.perm.symm.subset (List.mem_map_of_mem hp)

theorem inj (hnd : ts.Nodup) {q : Pending} (hp : p ∈ ps) (hq : q ∈ ps) (he : adr p = adr q) :
    p = q := List.inj_on_of_nodup_map (H.perm.nodup_iff.mp hnd) hp hq he

theorem add (hp : ts'.Perm (adr p :: ts)) (hd : d' (adr p) = (p.expire, p.call))
    (hs : ∀ t ∈ ts, d' t = d t) : Holds adr ts' d' (p :: ps) where
  perm := hp.trans (H.perm.cons _)
  data q hq := by
    rcases List.mem_cons.mp hq with rfl | hq
    · exact hd
    · rw [hs _ (H.mem hq), H.data q hq]

/-- The timer `p` gets the expiry `e`. -/
theorem extend (hnd : ts.Nodup) (hp : p ∈ ps) {e : ℤ} (hadr : adr { p with expire := e } = adr p)
    (ht : ts'.Perm ts) (hd : d' (adr p) = (e, p.call)) (hs : ∀ t ∈ ts, t ≠ adr p → d' t = d t) :
    Holds adr ts' d' (ps.map fun q => if q = p then { p with expire := e } else q) where
  perm := by
    refine ht.trans (H.perm.trans (List.Perm.of_eq ?_))
    rw [List.map_map]
    refine List.map_congr_left fun q _ => ?_
    by_cases hqp : q = p
    · simp [hqp, hadr]
    · simp [hqp]
  data q hq := by
    obtain ⟨q', hq', rfl⟩ := List.mem_map.mp hq
    by_cases hqp : q' = p
    · rw [if_pos hqp, hadr, hd]
    · rw [if_neg hqp, hs _ (H.mem hq') fun he => hqp (H.inj hnd hq' hp he), H.data q' hq']

theorem remove (hnd : ts.Nodup) (hp : p ∈ ps) (ht : ts'.Perm (ts.filter fun t => t ≠ adr p))
    (hs : ∀ t ∈ ts, t ≠ adr p → d' t = d t) :
    Holds adr ts' d' (ps.filter fun q => q ≠ p) where
  perm := by
    refine ht.trans ((H.perm.filter _).trans (List.Perm.of_eq ?_))
    rw [List.filter_map]
    refine congrArg (List.map adr) (List.filter_congr fun q hq => ?_)
    by_cases hqp : q = p
    · simp [hqp]
    · have : adr q ≠ adr p := fun he => hqp (H.inj hnd hq hp he)
      simp [hqp, this]
  data q hq := by
    obtain ⟨hq, hqp⟩ := List.mem_filter.mp hq
    have hqp : q ≠ p := by simpa using hqp
    rw [hs _ (H.mem hq) fun he => hqp (H.inj hnd hq hp he), H.data q hq]

theorem filter_expire (P : ℤ → Bool) :
    (ts.filter fun t => P (d t).1).Perm ((ps.filter fun q => P q.expire).map adr) := by
  refine (H.perm.filter _).trans (List.Perm.of_eq ?_)
  rw [List.filter_map]
  exact congrArg (List.map adr) (List.filter_congr fun q hq => by simp [H.data q hq])

theorem expired {cur : ℤ} (ht : ts'.Perm (ts.filter fun t => decide (cur < (d t).1)))
    (hs : ∀ t ∈ ts, cur < (d t).1 → d' t = d t) :
    Holds adr ts' d' (ps.filter fun q => decide (cur < q.expire)) where
  perm := ht.trans (H.filter_expire fun e => decide (cur < e))
  data q hq := by
    obtain ⟨hq, hlt⟩ := List.mem_filter.mp hq
    have hd := H.data q hq
    rw [hs _ (H.mem hq) (by rw [hd]; simpa using hlt), hd]

/-- A tick that takes the due timers in the order of their expiry fires the due part of the table,
in the order of expiry. -/
theorem fired {cur : ℤ} {due : List Ptr}
    (hd : due.Perm (ts.filter fun t => decide ((d t).1 ≤ cur)))
    (hs : due.Pairwise fun s t => (d s).1 ≤ (d t).1) :
    ∃ fs : List Pending, fs.Perm (ps.filter fun q => decide (q.expire ≤ cur)) ∧
      fs.Pairwise (fun q r => q.expire ≤ r.expire) ∧
      due.map (fun t => (d t).2) = fs.map Pending.call := by
  obtain ⟨fs, hf, rfl⟩ :=
    exists_perm_of_perm_map (hd.trans (H.filter_expire fun e => decide (e ≤ cur)))
  have hdata : ∀ q ∈ fs, d (adr q) = (q.expire, q.call) :=
    fun q hq => H.data q (List.mem_of_mem_filter (hf.subset hq))
  refine ⟨fs, hf, ?_, ?_⟩
  · refine (List.pairwise_map.mp hs).imp_of_mem ?_
    intro q r hq hr hqr
    rwa [hdata q hq, hdata r hr] at hqr
  · rw [List.map_map]
    exact List.map_congr_left fun q hq => by
      show (d (adr q)).2 = q.call
      rw [hdata q hq]

end Holds

/-! ## Both containers -/

/-- The two containers and the table their client keeps. -/
structure Pair where
  pending : List Pending
  lst : SortTimerLst
  heap : TimeHeap

/-- An operation on both containers. `index` is what the new heap object holds in that field. -/
inductive PairOp
  | add (p : Pending) (index : ℕ)
  | extend (p : Pending) (expire : ℤ)
  | cancel (p : Pending)
  | tick (cur : ℤ)

/-- `add` takes new objects and a callback, `extend` a later expiry. -/
def PairOp.Allowed (c : Pair) : PairOp → Prop
  | add p _ => (p.l ≠ 0 ∧ c.lst.mem.live p.l = false) ∧ (p.h ≠ 0 ∧ c.heap.mem.live p.h = false) ∧
      p.call.func ≠ 0
  | extend p e => p ∈ c.pending ∧ p.expire ≤ e
  | cancel p => p ∈ c.pending
  | tick _ => True

instance PairOp.decidableAllowed (c : Pair) (op : PairOp) : Decidable (op.Allowed c) := by
  cases op <;> unfold PairOp.Allowed <;> infer_instance

namespace Pair

/-- An operation on both, with the callbacks the list invokes and those the heap invokes. -/
def exec (fuel : ℕ) (c : Pair) : PairOp → Option (Pair × List Call × List Call)
  | .add p index =>
    (c.lst.exec fuel (.add p.l p.expire p.call.func p.call.arg)).map fun r =>
      (⟨p :: c.pending, r.1,
        HeapOp.exec c.heap (.add p.h ⟨p.expire, p.call.func, p.call.arg, index⟩)⟩, r.2, [])
  | .extend p e =>
    (c.lst.exec fuel (.adjust p.l e)).map fun r =>
      (⟨c.pending.map fun q => if q = p then { p with expire := e } else q, r.1,
        c.heap.refresh p.h e⟩, r.2, [])
  | .cancel p =>
    (c.lst.exec fuel (.del p.l)).map fun r =>
      (⟨c.pending.filter fun q => q ≠ p, r.1, c.heap.delTimer p.h⟩, r.2, [])
  | .tick cur =>
    (c.lst.exec fuel (.tick cur)).map fun r =>
      (⟨c.pending.filter fun q => decide (cur < q.expire), r.1, (c.heap.tick cur).1⟩, r.2,
        (c.heap.tick cur).2)

end Pair

def PairStep (fuel : ℕ) (c : Pair) (op : PairOp) (c' : Pair) : Prop :=
  op.Allowed c ∧ ∃ lc hc, c.exec fuel op = some (c', lc, hc)

/-! ## Both hold the table -/

/-- The list holds the table, with at most `n` timers. -/
def ListHolds (memL : Mem UtilTimer) (n : ℕ) (l : SortTimerLst) (ps : List Pending) : Prop :=
  ∃ s xs, SortTimerLst.Refines memL s l xs ∧ xs.length ≤ n ∧
    Holds Pending.l xs (fun t => (l.mem.cell t).data) ps

/-- The heap holds the table: its active timers are those of the table. -/
def HeapHolds (h : TimeHeap) (ps : List Pending) : Prop :=
  TimeHeap.Rep h ∧ Holds Pending.h h.active (fun t => (h.mem.cell t).data) ps

section List

variable {memL : Mem UtilTimer} {n fuel : ℕ} {l : SortTimerLst} {ps : List Pending} {p : Pending}

theorem SortTimerLst.Refines.perm_of {s : Schedule} {xs ys : List Ptr}
    (R : SortTimerLst.Refines memL s l xs) (hnd : ys.Nodup)
    (hm : ∀ t, t ∈ ys ↔ (s.entry t).isSome) : xs.Perm ys :=
  (List.perm_ext_iff_of_nodup R.linked.nodup hnd).mpr fun t => (R.mem_iff t).trans (hm t).symm

/-- A timer that is in the schedule before and after, with the same entry, has the same data. -/
theorem SortTimerLst.Refines.data_eq {s s' : Schedule} {l' : SortTimerLst} {xs xs' : List Ptr}
    (R : SortTimerLst.Refines memL s l xs) (R' : SortTimerLst.Refines memL s' l' xs') {t : Ptr}
    (ht : t ∈ xs) (he : s'.entry t = s.entry t) : (l'.mem.cell t).data = (l.mem.cell t).data := by
  obtain ⟨x, hx⟩ := Option.isSome_iff_exists.mp ((R.mem_iff t).mp ht)
  rw [R.data t x hx, R'.data t x (he.trans hx)]

theorem ListHolds.add (H : ListHolds memL n l ps) (hn : n < fuel) (h0 : p.l ≠ 0)
    (hl : l.mem.live p.l = false) (hc : p.call.func ≠ 0) :
    ∃ l', l.exec fuel (.add p.l p.expire p.call.func p.call.arg) = some (l', []) ∧
      ListHolds memL (n + 1) l' (p :: ps) := by
  obtain ⟨s, xs, R, hlen, H⟩ := H
  have hfree : memL.live p.l = false ∧ s.entry p.l = none := by
    have := (R.live p.l).not
    simpa [hl] using this
  have hnot : p.l ∉ xs := by rw [R.mem_iff, hfree.2]; simp
  obtain ⟨l', xs', hex, R', hlen'⟩ :=
    SortTimerLst.add_refines R ⟨⟨h0, hfree.1, hfree.2⟩, hc⟩ (hlen.trans hn.le)
  have hother : ∀ t, t ≠ p.l → (s.put p.l p.expire p.call).entry t = s.entry t :=
    fun t ht => Function.update_of_ne ht _ _
  have hself : (s.put p.l p.expire p.call).entry p.l = some ⟨p.expire, p.call, s.time⟩ :=
    Function.update_self _ _ _
  refine ⟨l', hex, _, xs', R', by omega, H.add ?_ (R'.data p.l _ hself) ?_⟩
  · apply R'.perm_of (List.nodup_cons.mpr ⟨hnot, R.linked.nodup⟩)
    intro t
    by_cases ht : t = p.l
    · simp [ht, hself]
    · rw [hother t ht, ← R.mem_iff]; simp [ht]
  · intro t ht
    exact R.data_eq R' ht (hother t fun he => hnot (he ▸ ht))

theorem ListHolds.extend (H : ListHolds memL n l ps) (hn : n < fuel) (hp : p ∈ ps) {e : ℤ}
    (he : p.expire ≤ e) :
    ∃ l', l.exec fuel (.adjust p.l e) = some (l', []) ∧
      ListHolds memL n l' (ps.map fun q => if q = p then { p with expire := e } else q) := by
  obtain ⟨s, xs, R, hlen, H⟩ := H
  obtain ⟨x, hx⟩ := Option.isSome_iff_exists.mp ((R.mem_iff p.l).mp (H.mem hp))
  have hdata : (x.expire, x.call) = (p.expire, p.call) := (R.data p.l x hx).symm.trans (H.data p hp)
  have hxe : x.expire ≤ e := (congrArg Prod.fst hdata).trans_le he
  obtain ⟨l', xs', hex, R', hlen'⟩ := SortTimerLst.adjust_refines R ⟨x, hx, hxe⟩ (hlen.trans hn.le)
  have hother : ∀ t, t ≠ p.l → (s.step (.adjust p.l e)).entry t = s.entry t :=
    fun t ht => Function.update_of_ne ht _ _
  have hself : (s.step (.adjust p.l e)).entry p.l = some ⟨e, x.call, s.time⟩ := by
    show Function.update s.entry p.l _ p.l = _
    rw [Function.update_self, hx]
    rfl
  refine ⟨l', hex, _, xs', R', by omega, H.extend R.linked.nodup hp rfl ?_ ?_ ?_⟩
  · apply R'.perm_of R.linked.nodup
    intro t
    rw [R.mem_iff]
    by_cases ht : t = p.l
    · rw [ht, hself, hx]; simp
    · rw [hother t ht]
  · rw [R'.data p.l _ hself]
    exact congrArg (Prod.mk e) (congrArg Prod.snd hdata)
  · exact fun t ht hne => R.data_eq R' ht (hother t hne)

theorem ListHolds.cancel (H : ListHolds memL n l ps) (hp : p ∈ ps) :
    ∃ l', l.exec fuel (.del p.l) = some (l', []) ∧
      ListHolds memL n l' (ps.filter fun q => q ≠ p) := by
  obtain ⟨s, xs, R, hlen, H⟩ := H
  obtain ⟨l', xs', hex, R', hlen'⟩ :=
    @SortTimerLst.del_refines memL s l xs p.l fuel R ((R.mem_iff p.l).mp (H.mem hp))
  have hother : ∀ t, t ≠ p.l → (s.step (.del p.l)).entry t = s.entry t :=
    fun t ht => Function.update_of_ne ht _ _
  have hself : (s.step (.del p.l)).entry p.l = none := Function.update_self _ _ _
  refine ⟨l', hex, _, xs', R', by omega, H.remove R.linked.nodup hp ?_ ?_⟩
  · apply R'.perm_of (R.linked.nodup.filter _)
    intro t
    by_cases ht : t = p.l
    · simp [ht, hself]
    · rw [hother t ht, ← R.mem_iff]; simp [ht]
  · exact fun t ht hne => R.data_eq R' ht (hother t hne)

theorem ListHolds.tick (H : ListHolds memL n l ps) (hn : n < fuel) (cur : ℤ) :
    ∃ l' calls, l.exec fuel (.tick cur) = some (l', calls) ∧
      ListHolds memL n l' (ps.filter fun q => decide (cur < q.expire)) ∧
      ∃ fs : List Pending, fs.Perm (ps.filter fun q => decide (q.expire ≤ cur)) ∧
        fs.Pairwise (fun q r => q.expire ≤ r.expire) ∧ calls = fs.map Pending.call := by
  obtain ⟨s, xs, R, hlen, H⟩ := H
  obtain ⟨l', xs', hex, R', hlen'⟩ := @SortTimerLst.tick_refines memL s l xs fuel R cur (hlen.trans_lt hn)
  have hentry : ∀ t, ∀ x ∈ s.entry t, (s.step (.tick cur)).entry t =
      if cur < l.expire t then s.entry t else none := by
    intro t x hx
    rw [R.expire_eq hx]
    show (s.entry t).filter _ = _
    rw [hx]
    by_cases hlt : cur < x.expire
    · simp [Option.filter, hlt]
    · simp [Option.filter, hlt]
  have hperm : xs'.Perm (xs.filter fun t => decide (cur < l.expire t)) := by
    apply R'.perm_of (R.linked.nodup.filter _)
    intro t
    rw [List.mem_filter, R.mem_iff]
    cases hs : s.entry t with
    | none => simp [Schedule.step, hs]
    | some x =>
      rw [hentry t x hs]
      by_cases hlt : cur < l.expire t
      · simp [hlt, hs]
      · simp [hlt]
  refine ⟨l', _, hex, ⟨_, xs', R', by omega, ?_⟩, H.fired (List.Perm.refl _) ?_⟩
  · apply H.expired hperm
    intro t ht hlt
    obtain ⟨x, hx⟩ := Option.isSome_iff_exists.mp ((R.mem_iff t).mp ht)
    exact R.data_eq R' ht ((hentry t x hx).trans (if_pos hlt))
  · exact R.sorted.keys.filter _

end List

section Heap

variable {h : TimeHeap} {ps : List Pending} {p : Pending}

theorem HeapHolds.add (H : HeapHolds h ps) {index : ℕ} (h0 : p.h ≠ 0)
    (hl : h.mem.live p.h = false) (hc : p.call.func ≠ 0) :
    HeapHolds (HeapOp.exec h (.add p.h ⟨p.expire, p.call.func, p.call.arg, index⟩)) (p :: ps) := by
  obtain ⟨r, H⟩ := H
  set timer : HeapTimer := ⟨p.expire, p.call.func, p.call.arg, index⟩
  obtain ⟨r', hp, hnot, -, hd⟩ := @TimeHeap.add_active h p.h r timer ⟨h0, hl⟩ hc
  refine ⟨r', H.add hp ?_ ?_⟩
  · rw [hd, if_pos rfl]; rfl
  · intro t ht
    have hne : t ≠ p.h := fun he => hnot (he ▸ (TimeHeap.mem_active.mp ht).1)
    rw [hd, if_neg hne]

theorem HeapHolds.extend (H : HeapHolds h ps) (hp : p ∈ ps) {e : ℤ} (he : p.expire ≤ e) :
    HeapHolds (h.refresh p.h e)
      (ps.map fun q => if q = p then { p with expire := e } else q) := by
  obtain ⟨r, H⟩ := H
  have hdata := H.data p hp
  have hexp : h.expire p.h = p.expire := congrArg Prod.fst hdata
  have hcall : (h.mem.cell p.h).call = p.call := congrArg Prod.snd hdata
  obtain ⟨r', hperm, -, hd⟩ :=
    TimeHeap.refresh_active r (TimeHeap.mem_active.mp (H.mem hp)).1 (hexp.trans_le he)
  refine ⟨r', H.extend r.active_nodup hp rfl hperm ?_ ?_⟩
  · rw [hd, if_pos rfl, hcall]
  · intro t _ hne
    rw [hd, if_neg hne]

theorem HeapHolds.cancel (H : HeapHolds h ps) (hp : p ∈ ps) :
    HeapHolds (h.delTimer p.h) (ps.filter fun q => q ≠ p) := by
  obtain ⟨r, H⟩ := H
  have h0 : p.h ≠ 0 := (r.indexed.valid_of_mem (TimeHeap.mem_active.mp (H.mem hp)).1).1
  obtain ⟨r', hact, -, hd⟩ := TimeHeap.del_active r h0
  exact ⟨r', H.remove r.active_nodup hp (List.Perm.of_eq hact) fun t _ hne => hd t hne⟩

theorem HeapHolds.tick (H : HeapHolds h ps) (cur : ℤ) :
    HeapHolds (h.tick cur).1 (ps.filter fun q => decide (cur < q.expire)) ∧
      ∃ fs : List Pending, fs.Perm (ps.filter fun q => decide (q.expire ≤ cur)) ∧
        fs.Pairwise (fun q r => q.expire ≤ r.expire) ∧ (h.tick cur).2 = fs.map Pending.call := by
  obtain ⟨r, H⟩ := H
  obtain ⟨due, r', hdue, hsort, hcalls, hact, hd, -⟩ := TimeHeap.tick_active r cur
  refine ⟨⟨r', H.expired hact fun t _ _ => hd t⟩, ?_⟩
  rw [hcalls]
  exact H.fired hdue hsort

end Heap

/-! ## Runs -/

/-- Both containers hold the table, the list with at most `n` timers. -/
def Joint (memL : Mem UtilTimer) (n : ℕ) (c : Pair) : Prop :=
  ListHolds memL n c.lst c.pending ∧ HeapHolds c.heap c.pending

/-- `calls` are those of the timers of the table due at `cur`, each once, in the order of their
expiry. -/
def FiredAt (c : Pair) (cur : ℤ) (calls : List Call) : Prop :=
  ∃ fs : List Pending, fs.Perm (c.pending.filter fun q => decide (q.expire ≤ cur)) ∧
    fs.Pairwise (fun q r => q.expire ≤ r.expire) ∧ calls = fs.map Pending.call

theorem ListHolds.mono {memL : Mem UtilTimer} {n m : ℕ} {l : SortTimerLst} {ps : List Pending}
    (H : ListHolds memL n l ps) (hnm : n ≤ m) : ListHolds memL m l ps := by
  obtain ⟨s, xs, R, hlen, H⟩ := H
  exact ⟨s, xs, R, hlen.trans hnm, H⟩

/-- Every allowed operation terminates and keeps `Joint`; a tick fires the same timers in both. -/
theorem Joint.exec {memL : Mem UtilTimer} {n fuel : ℕ} {c : Pair} {op : PairOp}
    (J : Joint memL n c) (hn : n < fuel) (ha : op.Allowed c) :
    ∃ c' lc hc, c.exec fuel op = some (c', lc, hc) ∧ Joint memL (n + 1) c' ∧
      ∀ cur, op = .tick cur → FiredAt c cur lc ∧ FiredAt c cur hc := by
  obtain ⟨JL, JH⟩ := J
  cases op with
  | add p index =>
    obtain ⟨⟨hl0, hl⟩, ⟨hh0, hh⟩, hc⟩ := ha
    obtain ⟨l', hex, JL'⟩ := JL.add hn hl0 hl hc
    exact ⟨_, [], [], by rw [Pair.exec, hex]; rfl, ⟨JL', JH.add hh0 hh hc⟩, nofun⟩
  | extend p e =>
    obtain ⟨hp, he⟩ := ha
    obtain ⟨l', hex, JL'⟩ := JL.extend hn hp he
    exact ⟨_, [], [], by rw [Pair.exec, hex]; rfl, ⟨JL'.mono n.le_succ, JH.extend hp he⟩, nofun⟩
  | cancel p =>
    obtain ⟨l', hex, JL'⟩ := @ListHolds.cancel memL n fuel c.lst c.pending p JL ha
    exact ⟨_, [], [], by rw [Pair.exec, hex]; rfl, ⟨JL'.mono n.le_succ, JH.cancel ha⟩, nofun⟩
  | tick cur =>
    obtain ⟨l', calls, hex, JL', hfl⟩ := JL.tick hn cur
    obtain ⟨JH', hfh⟩ := JH.tick cur
    refine ⟨_, calls, (c.heap.tick cur).2, by rw [Pair.exec, hex]; rfl,
      ⟨JL'.mono n.le_succ, JH'⟩, ?_⟩
    rintro cur' ⟨⟩
    exact ⟨hfl, hfh⟩

/-- The empty list and the empty heap. -/
def Pair.init (memL : Mem UtilTimer) (memH : Mem HeapTimer) (cap : ℕ) : Pair :=
  ⟨[], .init memL, .ofCapacity memH cap⟩

theorem joint_init {memL : Mem UtilTimer} (hf : memL.faults = []) (memH : Mem HeapTimer) {cap : ℕ}
    (hc : 1 ≤ cap) : Joint memL 0 (.init memL memH cap) := by
  refine ⟨⟨.empty, [], .init hf, le_refl 0, ⟨List.Perm.refl _, by simp [Pair.init]⟩⟩,
    TimeHeap.ofCapacity_rep memH hc, ⟨List.Perm.refl _, by simp [Pair.init]⟩⟩

theorem joint_of_run {memL : Mem UtilTimer} {memH : Mem HeapTimer} {cap fuel : ℕ}
    (hf : memL.faults = []) (hc : 1 ≤ cap) {ops : List PairOp} {c : Pair}
    (hr : Run (PairStep fuel) (.init memL memH cap) ops c) (hn : ops.length < fuel) :
    Joint memL ops.length c := by
  refine hr.history (fun ops c => ops.length < fuel → Joint memL ops.length c)
    (fun _ => joint_init hf memH hc) ?_ hn
  rintro ops c op c' J ⟨ha, lc, hc, hex⟩ hlen
  rw [List.length_append, List.length_singleton] at hlen ⊢
  have hlt : ops.length < fuel := by omega
  obtain ⟨c'', lc', hc', hex', J', -⟩ := (J hlt).exec hlt ha
  rw [hex'] at hex
  obtain ⟨rfl, -⟩ := Prod.mk.inj (Option.some.inj hex)
  exact J'

/-- **The list and the heap are interchangeable.** In every state that a run from the empty
containers reaches, each allowed operation terminates, and a tick invokes in both containers the
callbacks of the pending timers that are due, each once, in the order of their expiry. -/
theorem containers_interchangeable {memL : Mem UtilTimer} {memH : Mem HeapTimer} {cap fuel : ℕ}
    (hf : memL.faults = []) (hcap : 1 ≤ cap) {ops : List PairOp} {c : Pair}
    (hr : Run (PairStep fuel) (.init memL memH cap) ops c) (hn : ops.length < fuel) :
    (∀ op : PairOp, op.Allowed c → ∃ c' lc hc, c.exec fuel op = some (c', lc, hc)) ∧
      ∀ cur c' lc hc, c.exec fuel (.tick cur) = some (c', lc, hc) →
        FiredAt c cur lc ∧ FiredAt c cur hc ∧ lc.Perm hc := by
  have J := joint_of_run hf hcap hr hn
  refine ⟨fun op ha => ?_, fun cur c' lc hc hex => ?_⟩
  · obtain ⟨c', lc, hc, hex, -⟩ := J.exec hn ha
    exact ⟨c', lc, hc, hex⟩
  · obtain ⟨c'', lc', hc', hex', -, hfire⟩ := @Joint.exec memL _ fuel c (.tick cur) J hn trivial
    rw [hex'] at hex
    obtain ⟨rfl, hlc⟩ := Prod.mk.inj (Option.some.inj hex)
    obtain ⟨rfl, rfl⟩ := Prod.mk.inj hlc
    obtain ⟨hl, hh⟩ := hfire cur rfl
    refine ⟨hl, hh, ?_⟩
    obtain ⟨fl, hpl, -, rfl⟩ := hl
    obtain ⟨fh, hph, -, rfl⟩ := hh
    exact (hpl.trans hph.symm).map _

/-- Of three timers one is extended and one cancelled; a tick fires the third. -/
theorem containers_interchangeable_tick :
    let ops : List PairOp := [.add ⟨8, 8, 5, ⟨1, 0⟩⟩ 0, .add ⟨16, 16, 3, ⟨1, 1⟩⟩ 0,
      .add ⟨24, 24, 4, ⟨1, 2⟩⟩ 0, .extend ⟨16, 16, 3, ⟨1, 1⟩⟩ 9, .cancel ⟨8, 8, 5, ⟨1, 0⟩⟩]
    ∃ c, Run (PairStep 6) (.init (Mem.blank (.fresh 0 0 0)) (Mem.blank ⟨0, 0, 0, 0⟩) 1) ops c ∧
      ∃ c' lc hc, c.exec 6 (.tick 6) = some (c', lc, hc) ∧ lc = [⟨1, 2⟩] ∧ lc.Perm hc := by
  intro ops
  have hr : Run (PairStep 6) (.init (Mem.blank (.fresh 0 0 0)) (Mem.blank ⟨0, 0, 0, 0⟩) 1) ops _ :=
    .cons ⟨by decide +kernel, _, _, rfl⟩ (.cons ⟨by decide +kernel, _, _, rfl⟩
      (.cons ⟨by decide +kernel, _, _, rfl⟩ (.cons ⟨by decide +kernel, _, _, rfl⟩
        (.cons ⟨by decide +kernel, _, _, rfl⟩ (.nil _)))))
  refine ⟨_, hr, _, _, _, rfl, rfl, ?_⟩
  exact ((containers_interchangeable rfl (by decide) hr (by decide)).2 6 _ _ _ rfl).2.2

end SocketTest.Timer
