import SocketTest.Lib.Run
import SocketTest.Lib.StableSort
import SocketTest.Timer.ListOps

/-!
# Runs of a `sort_timer_lst`

What the list is for is said by a `Schedule`: the timers in it, each with its expiry, its call and
the time of its last insertion. `Refines` ties a list to a schedule: the members, stably sorted by
expiry. Every operation of the list keeps it (`exec_refines`), and `list_refines_schedule` follows
a run from the empty list.
-/

namespace SocketTest.Timer

open SocketTest.Lib

/-! ## The schedule -/

/-- A timer of the schedule; `since` counts insertions. -/
structure Entry where
  expire : ℤ
  call : Call
  since : ℕ
  deriving DecidableEq, Repr

structure Schedule where
  time : ℕ
  entry : Ptr → Option Entry

/-- An operation on the list; `add` allocates the timer. -/
inductive ListOp
  | add (t : Ptr) (expire : ℤ) (cbFunc : Ptr) (userData : ℕ)
  | adjust (t : Ptr) (expire : ℤ)
  | del (t : Ptr)
  | tick (cur : ℤ)

namespace Schedule

def empty : Schedule := ⟨0, fun _ => none⟩

def since (s : Schedule) (p : Ptr) : ℕ := ((s.entry p).map Entry.since).getD 0

/-- `t` inserted now. -/
def put (s : Schedule) (t : Ptr) (expire : ℤ) (call : Call) : Schedule :=
  ⟨s.time + 1, Function.update s.entry t (some ⟨expire, call, s.time⟩)⟩

def step (s : Schedule) : ListOp → Schedule
  | .add t e cb ud => s.put t e ⟨cb, ud⟩
  | .adjust t e => s.put t e ((s.entry t).elim ⟨0, 0⟩ Entry.call)
  | .del t => { s with entry := Function.update s.entry t none }
  | .tick cur => { s with entry := fun p => (s.entry p).filter fun x => cur < x.expire }

end Schedule

/-- `add` takes a new object and a callback, `adjust` a member and an expiry not below its own. -/
def ListOp.Allowed (mem₀ : Mem UtilTimer) (s : Schedule) : ListOp → Prop
  | add t _ cb _ => (t ≠ 0 ∧ mem₀.live t = false ∧ s.entry t = none) ∧ cb ≠ 0
  | adjust t e => ∃ x ∈ s.entry t, x.expire ≤ e
  | del t => (s.entry t).isSome
  | tick _ => True

instance ListOp.decidableAllowed (mem₀ : Mem UtilTimer) (s : Schedule) (op : ListOp) :
    Decidable (op.Allowed mem₀ s) := by
  cases op <;> unfold ListOp.Allowed <;> infer_instance

def ScheduleStep (mem₀ : Mem UtilTimer) (s : Schedule) (op : ListOp) (s' : Schedule) : Prop :=
  op.Allowed mem₀ s ∧ s' = s.step op

namespace SortTimerLst

/-- An operation on the list, with the callbacks invoked. -/
def exec (fuel : ℕ) (l : SortTimerLst) : ListOp → Option (SortTimerLst × List Call)
  | .add t e cb ud =>
    (addTimer fuel { l with mem := l.mem.create t (.fresh e cb ud) } t).map fun l => (l, [])
  | .adjust t e => (extend fuel l t e).map fun l => (l, [])
  | .del t => some (l.delTimer t, [])
  | .tick cur => tick fuel l cur

/-- A run; the callbacks are listed operation by operation. -/
def execAll (fuel : ℕ) (l : SortTimerLst) : List ListOp → Option (SortTimerLst × List (List Call))
  | [] => some (l, [])
  | op :: ops => (exec fuel l op).bind fun r =>
      (execAll fuel r.1 ops).map fun q => (q.1, r.2 :: q.2)

/-! ## The simulation -/

/-- `xs` are the timers of the schedule, stably sorted, and the list holds them in this order. -/
structure Refines (mem₀ : Mem UtilTimer) (s : Schedule) (l : SortTimerLst) (xs : List Ptr) :
    Prop where
  linked : Linked l xs
  mem_iff : ∀ p, p ∈ xs ↔ (s.entry p).isSome
  data : ∀ p, ∀ x ∈ s.entry p, (l.mem.cell p).data = (x.expire, x.call)
  called : ∀ p, ∀ x ∈ s.entry p, x.call.func ≠ 0
  earlier : ∀ p, ∀ x ∈ s.entry p, x.since < s.time
  sorted : StableSorted l.expire s.since xs
  live : ∀ p, l.mem.live p = true ↔ mem₀.live p = true ∨ (s.entry p).isSome
  apart : ∀ p, (s.entry p).isSome → mem₀.live p = false

namespace Refines

variable {mem₀ : Mem UtilTimer} {s : Schedule} {l : SortTimerLst} {xs : List Ptr}

theorem init (hf : mem₀.faults = []) : Refines mem₀ .empty (.init mem₀) [] where
  linked := ⟨⟨rfl, rfl⟩, List.nodup_nil, by simp, hf⟩
  mem_iff p := by simp [Schedule.empty]
  data p x hx := by simp [Schedule.empty] at hx
  called p x hx := by simp [Schedule.empty] at hx
  earlier p x hx := by simp [Schedule.empty] at hx
  sorted := List.Pairwise.nil
  live p := by simp [Schedule.empty, SortTimerLst.init]
  apart p hp := by simp [Schedule.empty] at hp

variable (R : Refines mem₀ s l xs)

include R

theorem expire_eq {p : Ptr} {x : Entry} (hx : x ∈ s.entry p) : l.expire p = x.expire :=
  congrArg Prod.fst (R.data p x hx)

theorem call_eq {p : Ptr} {x : Entry} (hx : x ∈ s.entry p) : (l.mem.cell p).call = x.call :=
  congrArg Prod.snd (R.data p x hx)

theorem cbFunc_ne {p : Ptr} (hp : p ∈ xs) : (l.mem.cell p).cbFunc ≠ 0 := by
  obtain ⟨x, hx⟩ := Option.isSome_iff_exists.mp ((R.mem_iff p).mp hp)
  have hc := R.called p x hx
  rw [← R.call_eq hx] at hc
  exact hc

theorem since_lt {p : Ptr} (hp : p ∈ xs) : s.since p < s.time := by
  obtain ⟨x, hx⟩ := Option.isSome_iff_exists.mp ((R.mem_iff p).mp hp)
  have := R.earlier p x hx
  unfold Schedule.since
  rw [hx]
  exact this

end Refines

theorem since_put {s : Schedule} {t : Ptr} {e : ℤ} {c : Call} :
    (s.put t e c).since = Function.update s.since t s.time := by
  funext p
  by_cases hp : p = t
  · subst hp; simp [Schedule.since, Schedule.put]
  · simp [Schedule.since, Schedule.put, hp]

/-- What holds of every entry when `t` has a new one. -/
theorem forall_put {s : Schedule} {t : Ptr} {e : ℤ} {c : Call} (P : Ptr → Entry → Prop) :
    (∀ p, ∀ x ∈ (s.put t e c).entry p, P p x) ↔
      P t ⟨e, c, s.time⟩ ∧ ∀ p, p ≠ t → ∀ x ∈ s.entry p, P p x := by
  refine (Function.forall_update_iff s.entry fun p o => ∀ x ∈ o, P p x).trans ?_
  simp only [Option.mem_some_iff, forall_eq']

/-- What `add` and `adjust` have in common: `l'` holds `t` with its new data, inserted into the
members other than `t`. -/
theorem Refines.put {mem₀ : Mem UtilTimer} {s : Schedule} {l l' : SortTimerLst} {xs ys : List Ptr}
    {t : Ptr} {e : ℤ} {c : Call} (R : Refines mem₀ s l xs) (hc : c.func ≠ 0)
    (h0 : mem₀.live t = false) (hys : ys.Sublist xs) (hmem : ∀ p, p ∈ ys ↔ p ∈ xs ∧ p ≠ t)
    (hdata : ∀ p, (l'.mem.cell p).data = if p = t then (e, c) else (l.mem.cell p).data)
    (hlive : ∀ p, l'.mem.live p = true ↔ l.mem.live p = true ∨ p = t)
    (hL : Linked l' (l'.insertSorted t ys)) :
    Refines mem₀ (s.put t e c) l' (l'.insertSorted t ys) where
  linked := hL
  mem_iff p := by
    rw [insertSorted, List.mem_orderedInsert, hmem, R.mem_iff]
    by_cases hp : p = t
    · simp [hp, Schedule.put]
    · simp [hp, Schedule.put]
  data := by
    refine (forall_put fun p x => (l'.mem.cell p).data = (x.expire, x.call)).2 ⟨?_, fun p hp x hx => ?_⟩
    · rw [hdata, if_pos rfl]
    · rw [hdata, if_neg hp]
      exact R.data p x hx
  called := (forall_put fun _ x => x.call.func ≠ 0).2 ⟨hc, fun p _ => R.called p⟩
  earlier := (forall_put fun _ x => x.since < s.time + 1).2
    ⟨Nat.lt_succ_self _, fun p _ x hx => (R.earlier p x hx).trans (Nat.lt_succ_self _)⟩
  sorted := by
    have hne : ∀ p ∈ ys, p ≠ t := fun p hp => ((hmem p).mp hp).2
    refine StableSorted.insert ?_ ?_
    · refine StableSorted.congr (R.sorted.sublist hys) ?_ ?_
      · intro p hp
        have := hdata p
        rw [if_neg (hne p hp)] at this
        exact congrArg Prod.fst this
      · intro p hp
        rw [since_put, Function.update_of_ne (hne p hp)]
    · intro p hp
      rw [since_put, Function.update_self, Function.update_of_ne (hne p hp)]
      exact R.since_lt (hys.subset hp)
  live p := by
    rw [hlive, R.live]
    by_cases hp : p = t
    · simp [hp, Schedule.put]
    · simp [hp, Schedule.put]
  apart p hp := by
    by_cases hpt : p = t
    · rw [hpt]; exact h0
    · simp only [Schedule.put, Function.update_of_ne hpt] at hp
      exact R.apart p hp

/-- What `del` and `tick` have in common: the members not in `ts` stay as they are. -/
theorem Refines.drop {mem₀ : Mem UtilTimer} {s s' : Schedule} {l l' : SortTimerLst}
    {xs ys ts : List Ptr} (R : Refines mem₀ s l xs) (hys : ys.Sublist xs)
    (hmem : ∀ p, p ∈ ys ↔ p ∈ xs ∧ p ∉ ts) (hts : ∀ p ∈ ts, p ∈ xs)
    (hentry : ∀ p, s'.entry p = if p ∈ ts then none else s.entry p) (htime : s'.time = s.time)
    (hd : Dropped l ts l') (hL : Linked l' ys) : Refines mem₀ s' l' ys := by
  have hsub : ∀ {p : Ptr} {x : Entry}, x ∈ s'.entry p → x ∈ s.entry p := by
    intro p x hx
    rw [hentry] at hx
    split_ifs at hx with hp
    · cases hx
    · exact hx
  refine ⟨hL, ?_, ?_, ?_, ?_, ?_, ?_, ?_⟩
  · intro p
    rw [hmem, R.mem_iff, hentry]
    by_cases hp : p ∈ ts
    · simp [hp]
    · simp [hp]
  · exact fun p x hx => (hd.data p).trans (R.data p x (hsub hx))
  · exact fun p x hx => R.called p x (hsub hx)
  · exact fun p x hx => htime.symm ▸ R.earlier p x (hsub hx)
  · refine StableSorted.congr (R.sorted.sublist hys) ?_ ?_
    · exact fun p _ => congrArg Prod.fst (hd.data p)
    · intro p hp
      unfold Schedule.since
      rw [hentry, if_neg ((hmem p).mp hp).2]
  · intro p
    rw [hd.live, R.live, hentry]
    by_cases hp : p ∈ ts
    · have h0 := R.apart p ((R.mem_iff p).mp (hts p hp))
      simp [hp, h0]
    · simp [hp]
  · intro p hp
    obtain ⟨x, hx⟩ := Option.isSome_iff_exists.mp hp
    exact R.apart p (Option.isSome_iff_exists.mpr ⟨x, hsub hx⟩)

/-! ## One operation -/

section Operations

variable {mem₀ : Mem UtilTimer} {s : Schedule} {l : SortTimerLst} {xs : List Ptr} {t : Ptr}
  {fuel : ℕ} (R : Refines mem₀ s l xs)

include R

theorem add_refines {e : ℤ} {cb : Ptr} {ud : ℕ} (ha : (ListOp.add t e cb ud).Allowed mem₀ s)
    (hf : xs.length ≤ fuel) :
    ∃ l' xs', exec fuel l (.add t e cb ud) = some (l', []) ∧
      Refines mem₀ (s.put t e ⟨cb, ud⟩) l' xs' ∧ xs'.length ≤ xs.length + 1 := by
  obtain ⟨⟨ht0, hm0, hnone⟩, hcb⟩ := ha
  have hdead : l.mem.live t = false := by
    have := (R.live t).not
    rw [hnone, hm0] at this
    simpa using this
  have ht : t ∉ xs := by rw [R.mem_iff, hnone]; simp
  set g : SortTimerLst := { l with mem := l.mem.create t (.fresh e cb ud) } with hg
  have hother : ∀ p, p ≠ t → g.mem.cell p = l.mem.cell p := by
    intro p hp
    rw [hg, Mem.create_cell, Function.update_of_ne hp]
  have hself : g.mem.cell t = .fresh e cb ud := by rw [hg, Mem.create_cell, Function.update_self]
  have hlive : g.mem.live = Function.update l.mem.live t true := rfl
  have hvt : g.mem.Valid t := ⟨ht0, by rw [hlive, Function.update_self]⟩
  have hgL : Linked g xs := by
    refine ⟨R.linked.links.congr ?_ ?_, R.linked.nodup, ?_, R.linked.faults⟩
    · intro y hy
      exact congrArg UtilTimer.next (hother y fun h => ht (h ▸ hy))
    · intro y hy
      exact congrArg UtilTimer.prev (hother y fun h => ht (h ▸ hy))
    · intro p hp
      refine ⟨R.linked.ne_zero hp, ?_⟩
      have hpt : p ≠ t := fun h => ht (h ▸ hp)
      rw [hlive, Function.update_of_ne hpt]
      exact (R.linked.valid p hp).2
  obtain ⟨l', hl', hL, hfr⟩ := addTimer_spec hgL hvt ht (congrArg UtilTimer.next hself)
    (congrArg UtilTimer.prev hself) hf
  have hexp : l'.expire = g.expire := hfr.expire
  have hins : l'.insertSorted t xs = g.insertSorted t xs := by unfold insertSorted; rw [hexp]
  rw [← hins] at hL
  refine ⟨l', l'.insertSorted t xs, ?_, ?_, ?_⟩
  · show (addTimer fuel g t).map _ = _
    rw [hl']
    rfl
  · refine R.put hcb hm0 (List.Sublist.refl xs) ?_ ?_ ?_ hL
    · intro p
      exact ⟨fun hp => ⟨hp, fun h => ht (h ▸ hp)⟩, And.left⟩
    · intro p
      rw [hfr.data]
      by_cases hp : p = t
      · rw [if_pos hp, hp, hself]; rfl
      · rw [if_neg hp, hother p hp]
    · intro p
      rw [hfr.live, hlive]
      by_cases hp : p = t
      · simp [hp]
      · simp [hp]
  · rw [insertSorted, List.orderedInsert_length]

theorem adjust_refines {e : ℤ} (ha : (ListOp.adjust t e).Allowed mem₀ s)
    (hf : xs.length ≤ fuel) :
    ∃ l' xs', exec fuel l (.adjust t e) = some (l', []) ∧
      Refines mem₀ (s.step (.adjust t e)) l' xs' ∧ xs'.length = xs.length := by
  obtain ⟨x, hx, hxe⟩ := ha
  have htx : t ∈ xs := (R.mem_iff t).mpr (Option.isSome_iff_exists.mpr ⟨x, hx⟩)
  obtain ⟨ys, r, rfl⟩ := List.append_of_mem htx
  have hnd := R.linked.nodup
  have hvt : l.mem.Valid t := R.linked.valid t (by simp)
  set g := l.setExpire t e with hg
  have hgL : Linked g (ys ++ t :: r) := R.linked.setExpire hvt e
  obtain ⟨l', hl', hL, hfr⟩ := @adjustTimer_spec g ys r t hgL fuel (by simp at hf; omega)
  have hexp : l'.expire = Function.update l.expire t e := hfr.expire.trans (setExpire_expire e)
  -- the timers before `t` expire no later than it did
  have hfront : ∀ y ∈ ys, ¬ l'.expire t < l'.expire y := by
    intro y hy
    have hyt : y ≠ t := by grind
    have hle : l.expire y ≤ l.expire t :=
      (List.pairwise_append.mp R.sorted).2.2 y hy t List.mem_cons_self |>.le
    rw [hexp, Function.update_self, Function.update_of_ne hyt]
    rw [R.expire_eq hx] at hle
    exact not_lt.mpr (hle.trans hxe)
  have hins : ys ++ g.insertSorted t r = l'.insertSorted t (ys ++ r) := by
    unfold insertSorted
    rw [orderedInsert_append hfront, hfr.expire]
  rw [hins] at hL
  have hcall : ((s.entry t).elim ⟨0, 0⟩ Entry.call) = x.call := by rw [hx]; rfl
  refine ⟨l', l'.insertSorted t (ys ++ r), ?_, ?_, ?_⟩
  · show (adjustTimer fuel g t).map _ = _
    rw [hl']
    rfl
  · show Refines mem₀ (s.put t e _) l' _
    rw [hcall]
    refine R.put (R.called t x hx) (R.apart t (Option.isSome_iff_exists.mpr ⟨x, hx⟩)) ?_ ?_ ?_ ?_ hL
    · exact List.Sublist.append (List.Sublist.refl ys) (List.sublist_cons_self t r)
    · intro p
      grind
    · intro p
      rw [hfr.data, setExpire_data]
      by_cases hp : p = t
      · rw [if_pos hp, if_pos hp, hp, R.call_eq hx]
      · rw [if_neg hp, if_neg hp]
    · intro p
      rw [hfr.live, setExpire_live]
      constructor
      · exact Or.inl
      · rintro (hp | rfl)
        · exact hp
        · exact hvt.2
  · rw [insertSorted, List.orderedInsert_length, List.length_append, List.length_append,
      List.length_cons, Nat.add_assoc]

theorem del_refines (ha : (ListOp.del t).Allowed mem₀ s) :
    ∃ l' xs', exec fuel l (.del t) = some (l', []) ∧ Refines mem₀ (s.step (.del t)) l' xs' ∧
      xs'.length ≤ xs.length := by
  obtain ⟨ys, r, rfl⟩ := List.append_of_mem ((R.mem_iff t).mpr ha)
  have hnd := R.linked.nodup
  obtain ⟨hL, hd⟩ := delTimer_spec R.linked
  refine ⟨_, _, rfl, R.drop ?_ ?_ ?_ ?_ rfl hd hL, by simp⟩
  · exact List.Sublist.append (List.Sublist.refl ys) (List.sublist_cons_self t r)
  · intro p
    grind
  · intro p hp
    rw [List.mem_singleton.mp hp]
    simp
  · intro p
    by_cases hp : p = t
    · simp [Schedule.step, hp]
    · simp [Schedule.step, hp]

/-- A tick takes the due timers out and invokes their callbacks in the order of the list. -/
theorem tick_refines {cur : ℤ} (hf : xs.length < fuel) :
    ∃ l' xs', exec fuel l (.tick cur) = some (l',
        (xs.filter fun p => decide (l.expire p ≤ cur)).map fun p => (l.mem.cell p).call) ∧
      Refines mem₀ (s.step (.tick cur)) l' xs' ∧ xs'.length ≤ xs.length := by
  obtain ⟨l', hl', hL, hd⟩ := @tick_spec l xs cur fuel R.linked (fun p hp => R.cbFunc_ne hp) hf
  have hdue : l.dueFront cur xs = xs.filter fun p => decide (l.expire p ≤ cur) :=
    takeWhile_eq_filter R.sorted.keys
  have hrest : l.notDue cur xs = xs.filter fun p => decide (cur < l.expire p) :=
    dropWhile_eq_filter R.sorted.keys
  rw [hdue] at hl' hd
  rw [hrest] at hL
  refine ⟨l', _, hl', R.drop List.filter_sublist ?_ ?_ ?_ rfl hd hL, List.length_filter_le _ _⟩
  · intro p
    simp only [List.mem_filter, decide_eq_true_eq]
    constructor
    · rintro ⟨hp, hlt⟩
      exact ⟨hp, fun h => absurd h.2 (not_le.mpr hlt)⟩
    · rintro ⟨hp, hn⟩
      exact ⟨hp, not_le.mp fun h => hn ⟨hp, h⟩⟩
  · exact fun p hp => List.mem_of_mem_filter hp
  · intro p
    show (s.entry p).filter _ = _
    cases hs : s.entry p with
    | none => simp
    | some x =>
      have hpx : p ∈ xs := (R.mem_iff p).mpr (by rw [hs]; rfl)
      have hexp : l.expire p = x.expire := R.expire_eq hs
      by_cases hlt : cur < x.expire
      · simp [Option.filter, hexp, hlt, not_le.mpr hlt]
      · simp [Option.filter, hexp, hlt, hpx, not_lt.mp hlt]

end Operations

theorem exec_refines {mem₀ : Mem UtilTimer} {s : Schedule} {l : SortTimerLst} {xs : List Ptr}
    {op : ListOp} {fuel : ℕ} (R : Refines mem₀ s l xs) (ha : op.Allowed mem₀ s)
    (hf : xs.length < fuel) :
    ∃ l' xs' calls, exec fuel l op = some (l', calls) ∧ Refines mem₀ (s.step op) l' xs' ∧
      xs'.length ≤ xs.length + 1 := by
  cases op with
  | add t e cb ud =>
    obtain ⟨l', xs', hl', R', hlen⟩ := add_refines R ha hf.le
    exact ⟨l', xs', _, hl', R', hlen⟩
  | adjust t e =>
    obtain ⟨l', xs', hl', R', hlen⟩ := adjust_refines R ha hf.le
    exact ⟨l', xs', _, hl', R', by omega⟩
  | del t =>
    obtain ⟨l', xs', hl', R', hlen⟩ := del_refines R ha
    exact ⟨l', xs', _, hl', R', by omega⟩
  | tick cur =>
    obtain ⟨l', xs', hl', R', hlen⟩ := @tick_refines mem₀ s l xs fuel R cur hf
    exact ⟨l', xs', _, hl', R', by omega⟩

/-! ## Runs -/

theorem run_refines {mem₀ : Mem UtilTimer} {s s' : Schedule} {ops : List ListOp}
    (hr : Run (ScheduleStep mem₀) s ops s') {l : SortTimerLst} {xs : List Ptr} {fuel : ℕ}
    (R : Refines mem₀ s l xs) (hf : xs.length + ops.length < fuel) :
    ∃ l' xs' calls, execAll fuel l ops = some (l', calls) ∧ Refines mem₀ s' l' xs' := by
  induction hr generalizing l xs with
  | nil s => exact ⟨l, xs, [], rfl, R⟩
  | @cons s t u op ops hs _ ih =>
    obtain ⟨ha, rfl⟩ := hs
    rw [List.length_cons] at hf
    obtain ⟨l₁, xs₁, calls₁, hl₁, R₁, hlen⟩ := exec_refines R ha (by omega : xs.length < fuel)
    obtain ⟨l', xs', calls, hl', R'⟩ := ih R₁ (by omega)
    refine ⟨l', xs', calls₁ :: calls, ?_, R'⟩
    rw [execAll, hl₁, Option.bind_some, hl']
    rfl

end SortTimerLst

/-- **The list refines a stably sorted sequence.** Every run of the schedule is a run of the list
that terminates without a fault. Following `next` from `head` then visits exactly the members,
each once, in the order of their expiry and, for equal ones, of their last insertion; and a
non-empty list is null-terminated at both ends and reads backwards from `tail`. -/
theorem list_refines_schedule {mem₀ : Mem UtilTimer} (hf : mem₀.faults = []) {s : Schedule}
    {ops : List ListOp} (hr : Run (ScheduleStep mem₀) .empty ops s) {fuel : ℕ}
    (hfuel : ops.length < fuel) :
    ∃ l calls xs, SortTimerLst.execAll fuel (.init mem₀) ops = some (l, calls) ∧
      l.mem.faults = [] ∧ Seg l.next l.head xs 0 ∧ xs.Nodup ∧
      (∀ p, p ∈ xs ↔ (s.entry p).isSome) ∧
      (∀ p, ∀ x ∈ s.entry p, l.expire p = x.expire) ∧
      xs.Pairwise (fun p q => ∀ x ∈ s.entry p, ∀ y ∈ s.entry q,
        x.expire < y.expire ∨ x.expire = y.expire ∧ x.since < y.since) ∧
      (xs ≠ [] → l.prev l.head = 0 ∧ l.next l.tail = 0 ∧ xs.getLast? = some l.tail ∧
        Seg l.prev l.tail xs.reverse 0) := by
  obtain ⟨l, xs, calls, hl, R⟩ := SortTimerLst.run_refines hr (.init hf) (by simpa using hfuel)
  refine ⟨l, calls, xs, hl, R.linked.faults, R.linked.links.forward, R.linked.nodup, R.mem_iff,
    fun p x hx => R.expire_eq hx, ?_, ?_⟩
  · refine R.sorted.imp ?_
    intro p q hpq x hx y hy
    unfold Earlier Schedule.since at hpq
    rw [R.expire_eq hx, R.expire_eq hy, hx, hy] at hpq
    exact hpq
  · intro hne
    obtain ⟨ys, b, hyb⟩ : ∃ ys b, xs = ys ++ [b] := by
      rcases List.eq_nil_or_concat xs with hn | ⟨ys, b, hc⟩
      · exact absurd hn hne
      · exact ⟨ys, b, by rw [hc, List.concat_eq_append]⟩
    have htail : l.tail = b := R.linked.tail_eq hyb
    refine ⟨?_, ?_, ?_, ?_⟩
    · obtain ⟨x, r, hxr⟩ := List.exists_cons_of_ne_nil hne
      have hhd : l.head = x := by rw [R.linked.head_eq, hxr]; rfl
      rw [hhd]
      exact @SortTimerLst.Linked.prev_eq l xs R.linked [] r x hxr
    · rw [htail]
      exact @SortTimerLst.Linked.next_eq l xs R.linked ys [] b hyb
    · rw [hyb, htail, List.getLast?_concat]
    · have := R.linked.links.backward
      rwa [if_neg hne] at this

/-- A timer adjusted to the expiry it has goes behind the other of that expiry. -/
theorem list_refines_schedule_tie :
    let ops : List ListOp := [.add 8 5 1 0, .add 16 5 1 1, .adjust 8 5]
    let s := ops.foldl Schedule.step .empty
    (∀ x ∈ s.entry 16, ∀ y ∈ s.entry 8, x.expire = y.expire ∧ x.since < y.since) ∧
    ∃ l calls xs, SortTimerLst.execAll 4 (.init (Mem.blank (.fresh 0 0 0))) ops = some (l, calls) ∧
      l.mem.faults = [] ∧ Seg l.next l.head xs 0 ∧ xs.Nodup ∧
      ∀ p, p ∈ xs ↔ (s.entry p).isSome := by
  intro ops s
  refine ⟨by decide, ?_⟩
  have hr : Run (ScheduleStep (Mem.blank (.fresh 0 0 0))) .empty ops s :=
    .cons ⟨by decide, rfl⟩ (.cons ⟨by decide, rfl⟩ (.cons ⟨by decide, rfl⟩ (.nil _)))
  have hlen : ops.length < 4 := by decide
  obtain ⟨l, calls, xs, hl, hf, hs, hn, hm, -⟩ := list_refines_schedule rfl hr hlen
  exact ⟨l, calls, xs, hl, hf, hs, hn, hm⟩

end SocketTest.Timer
