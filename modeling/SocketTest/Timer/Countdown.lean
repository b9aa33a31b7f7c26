import SocketTest.Lib.Run
import SocketTest.Timer.TimeWheelOps

/-!
# The time wheel as a countdown

What the wheel is for is said by a `Countdown`: the live timers, each with the number of ticks it
has left. Adding a timer starts it at `delay`, a tick takes one from every timer and fires those
that reach zero. `Counts` ties a wheel to a countdown: a timer has `rotation` full rounds and the
way from the current slot to its own left. Every operation keeps it, and `wheel_countdown` reads off
a run on which tick a timer fires.
-/

namespace SocketTest.Timer

open SocketTest.Lib

/-- An operation on the wheel; `add` takes the address of the new timer and the callback its caller
assigns. -/
inductive WheelOp
  | add (p : Ptr) (timeout : ℤ) (call : Call)
  | del (p : Ptr)
  | tick
  deriving DecidableEq

/-! ## The countdown -/

/-- The number of the tick that fires a timer, counted from its addition. -/
def delay (timeout : ℤ) : ℕ := (max 1 (timeout / TimeWheel.SI)).toNat + 1

/-- The ticks each timer has left, and its callback. -/
abbrev Countdown := Ptr → Option (ℕ × Call)

namespace Countdown

def step (s : Countdown) : WheelOp → Countdown
  | .add p timeout call => Function.update s p (some (delay timeout, call))
  | .del p => Function.update s p none
  | .tick => fun p => (s p).bind fun x => if x.1 ≤ 1 then none else some (x.1 - 1, x.2)

/-- The countdown after a run from the empty wheel. -/
def after (ops : List WheelOp) : Countdown := ops.foldl step fun _ => none

/-- What a tick fires for `p`. -/
def fires (s : Countdown) (p : Ptr) : List (Ptr × Call) :=
  match s p with
  | some (1, call) => [(p, call)]
  | _ => []

theorem fires_none {s : Countdown} {p : Ptr} (hs : s p = none) : s.fires p = [] := by
  unfold fires
  rw [hs]

theorem fires_some {s : Countdown} {p : Ptr} {n : ℕ} {call : Call} (hs : s p = some (n, call)) :
    s.fires p = if n = 1 then [(p, call)] else [] := by
  unfold fires
  rw [hs]
  by_cases h1 : n = 1
  · rw [h1, if_pos rfl]
    rfl
  · rw [if_neg h1]
    split
    · rename_i c hc
      exact absurd (congrArg Prod.fst (Option.some.inj hc)) h1
    · rfl

theorem step_none {s : Countdown} {p : Ptr} (hs : s p = none) {op : WheelOp}
    (ha : ∀ timeout call, op ≠ .add p timeout call) : step s op p = none := by
  cases op with
  | add q timeout call =>
    have hq : p ≠ q := by
      rintro rfl
      exact ha timeout call rfl
    show Function.update s q _ p = none
    rw [Function.update_of_ne hq, hs]
  | del q =>
    show Function.update s q none p = none
    by_cases hq : p = q
    · rw [hq, Function.update_self]
    · rw [Function.update_of_ne hq, hs]
  | tick =>
    show (s p).bind _ = none
    rw [hs]
    rfl

theorem foldl_none {s : Countdown} {p : Ptr} (hs : s p = none) {ops : List WheelOp}
    (ha : ∀ timeout call, .add p timeout call ∉ ops) : ops.foldl step s p = none := by
  induction ops generalizing s with
  | nil => exact hs
  | cons op ops ih =>
    refine ih (step_none hs ?_) fun timeout call hm => ha timeout call (List.mem_cons_of_mem _ hm)
    rintro timeout call rfl
    exact ha timeout call List.mem_cons_self

/-- A timer with `n` ticks left, some operations later: it is gone when it was deleted or the `n`
ticks have passed. -/
theorem foldl_some {s : Countdown} {p : Ptr} {n : ℕ} {call : Call} (hs : s p = some (n, call))
    (hn : 0 < n) {ops : List WheelOp} (ha : ∀ timeout call, .add p timeout call ∉ ops) :
    ops.foldl step s p =
      if .del p ∉ ops ∧ ops.count .tick < n then some (n - ops.count .tick, call) else none := by
  induction ops generalizing s n with
  | nil => simp [hs, hn]
  | cons op ops ih =>
    have ha' : ∀ timeout call, .add p timeout call ∉ ops :=
      fun timeout call hm => ha timeout call (List.mem_cons_of_mem _ hm)
    rw [List.foldl_cons]
    cases op with
    | add q timeout c =>
      have hq : p ≠ q := by
        rintro rfl
        exact ha timeout c List.mem_cons_self
      have hs' : step s (.add q timeout c) p = some (n, call) := by
        show Function.update s q _ p = _
        rw [Function.update_of_ne hq, hs]
      rw [ih hs' hn ha']
      simp
    | del q =>
      by_cases hq : p = q
      · subst hq
        have hs' : step s (.del p) p = none := Function.update_self _ _ _
        rw [foldl_none hs' ha', if_neg]
        exact fun h => h.1 List.mem_cons_self
      · have hs' : step s (.del q) p = some (n, call) := by
          show Function.update s q _ p = _
          rw [Function.update_of_ne hq, hs]
        rw [ih hs' hn ha']
        simp [hq]
    | tick =>
      have hs' : step s .tick p = if n ≤ 1 then none else some (n - 1, call) := by
        show (s p).bind _ = _
        rw [hs]
        rfl
      by_cases h1 : n ≤ 1
      · rw [if_pos h1] at hs'
        rw [foldl_none hs' ha', if_neg]
        rintro ⟨-, hc⟩
        rw [List.count_cons_self] at hc
        omega
      · rw [if_neg h1] at hs'
        rw [ih hs' (by omega) ha', List.count_cons_self]
        have hmem : (WheelOp.del p ∉ WheelOp.tick :: ops) ↔ WheelOp.del p ∉ ops := by simp
        by_cases hc : WheelOp.del p ∉ ops ∧ ops.count .tick < n - 1
        · rw [if_pos hc, if_pos ⟨hmem.mpr hc.1, by omega⟩]
          congr 2
          omega
        · rw [if_neg hc, if_neg]
          exact fun h => hc ⟨hmem.mp h.1, by omega⟩

end Countdown

/-! ## The wheel's operations -/

/-- `add` takes a new object, a timeout that is not negative and a callback; `del` a live timer. -/
def WheelOp.Allowed (w : TimeWheel) : WheelOp → Prop
  | add p timeout call => (p ≠ 0 ∧ w.mem.live p = false) ∧ 0 ≤ timeout ∧ call.func ≠ 0
  | del p => w.mem.Valid p
  | tick => True

instance WheelOp.decidableAllowed (w : TimeWheel) (op : WheelOp) : Decidable (op.Allowed w) := by
  cases op <;> unfold WheelOp.Allowed <;> infer_instance

namespace TimeWheel

/-- An operation, with the timers that fire. -/
def exec (fuel : ℕ) (w : TimeWheel) : WheelOp → Option (TimeWheel × List (Ptr × Call))
  | .add p timeout call => some ((w.addTimer p timeout).1.setCall p call, [])
  | .del p => some (w.delTimer p, [])
  | .tick => w.tick fuel

/-- Full rounds, the way to the timer's slot, and the tick that fires. -/
def remaining (w : TimeWheel) (p : Ptr) : ℕ :=
  w.rotation p * N + (w.timeSlot p + N - w.curSlot) % N + 1

/-- The timers of the wheel are those of the countdown. -/
structure Counts (s : Countdown) (w : TimeWheel) (xs : ℕ → List Ptr) : Prop where
  wheeled : Wheeled w xs
  mem_iff : ∀ p, (∃ i < N, p ∈ xs i) ↔ (s p).isSome
  live : ∀ p, w.mem.live p = true ↔ (s p).isSome
  entry : ∀ p, ∀ x ∈ s p, x = (w.remaining p, (w.mem.cell p).call) ∧ x.2.func ≠ 0

end TimeWheel

def WheelStep (fuel : ℕ) (w : TimeWheel) (a : WheelOp × List (Ptr × Call)) (w' : TimeWheel) :
    Prop := a.1.Allowed w ∧ w.exec fuel a.1 = some (w', a.2)

namespace TimeWheel

/-! ## Slots and rounds -/

theorem ticksOf_eq {timeout : ℤ} (ht : 0 ≤ timeout) : ticksOf timeout + 1 = delay timeout := by
  unfold ticksOf delay SI
  by_cases h1 : timeout < 1
  · rw [if_pos h1]
    omega
  · rw [if_neg h1]
    omega

theorem remaining_added {n cur : ℕ} (hc : cur < N) :
    n / N * N + ((cur + n % N) % N + N - cur) % N + 1 = n + 1 := by
  unfold N at hc ⊢
  omega

theorem remaining_here {rot cur : ℕ} :
    rot * N + (cur + N - cur) % N + 1 = rot * N + 1 := by
  unfold N
  omega

theorem remaining_here_next {rot cur : ℕ} (hr : 0 < rot) (hc : cur < N) :
    (rot - 1) * N + (cur + N - (cur + 1) % N) % N + 1 = rot * N := by
  unfold N at hc ⊢
  omega

theorem remaining_away {rot ts cur : ℕ} (hts : ts < N) (hc : cur < N) (hne : ts ≠ cur) :
    1 ≤ (ts + N - cur) % N ∧
      rot * N + (ts + N - (cur + 1) % N) % N + 1 = rot * N + (ts + N - cur) % N := by
  unfold N at hts hc ⊢
  omega

/-! ## One operation -/

section Operations

variable {s : Countdown} {w : TimeWheel} {xs : ℕ → List Ptr} (C : Counts s w xs)

include C

theorem Counts.cbFunc_ne {i : ℕ} (hi : i < N) {p : Ptr} (hp : p ∈ xs i) :
    (w.mem.cell p).cbFunc ≠ 0 := by
  obtain ⟨x, hx⟩ := Option.isSome_iff_exists.mp ((C.mem_iff p).mp ⟨i, hi, hp⟩)
  obtain ⟨hxe, hxc⟩ := C.entry p x hx
  rw [hxe] at hxc
  exact hxc

theorem Counts.home {p : Ptr} (hp : (s p).isSome) : w.timeSlot p < N ∧ p ∈ xs (w.timeSlot p) := by
  obtain ⟨i, hi, hm⟩ := (C.mem_iff p).mpr hp
  rw [C.wheeled.home i hi p hm]
  exact ⟨hi, hm⟩

theorem add_counts {p : Ptr} {timeout : ℤ} {call : Call}
    (ha : (WheelOp.add p timeout call).Allowed w) :
    Counts (s.step (.add p timeout call)) ((w.addTimer p timeout).1.setCall p call)
      (Function.update xs (w.slotFor timeout) (p :: xs (w.slotFor timeout))) := by
  obtain ⟨⟨h0, hl⟩, ht, hcb⟩ := ha
  obtain ⟨W', A⟩ := added_spec C.wheeled h0 hl ht call
  set g := (w.addTimer p timeout).1.setCall p call with hg
  have hself : s.step (.add p timeout call) p = some (delay timeout, call) :=
    Function.update_self _ _ _
  have hother : ∀ q, q ≠ p → s.step (.add p timeout call) q = s q :=
    fun q hq => Function.update_of_ne hq _ _
  constructor
  · exact W'
  · intro q
    by_cases hq : q = p
    · rw [hq, hself]
      simp only [Option.isSome_some, iff_true]
      exact ⟨w.slotFor timeout, slotFor_lt w timeout, by rw [Function.update_self]; simp⟩
    · rw [hother q hq, ← C.mem_iff]
      apply exists_congr
      intro i
      by_cases hi : i = w.slotFor timeout
      · subst hi
        simp [hq]
      · rw [Function.update_of_ne hi]
  · intro q
    rw [A.live]
    by_cases hq : q = p
    · rw [hq, hself, Function.update_self]
      simp
    · rw [hother q hq, Function.update_of_ne hq]
      exact C.live q
  · intro q x hx
    by_cases hq : q = p
    · subst hq
      rw [hself] at hx
      cases hx
      refine ⟨Prod.ext ?_ (congrArg Prod.snd A.data_self).symm, hcb⟩
      have hslot : g.timeSlot q = w.slotFor timeout := congrArg Prod.fst A.data_self
      show delay timeout = g.rotation q * N + (g.timeSlot q + N - g.curSlot) % N + 1
      rw [A.rotation, Function.update_self, A.curSlot, hslot, ← ticksOf_eq ht]
      exact (remaining_added C.wheeled.cur_lt).symm
    · rw [hother q hq] at hx
      obtain ⟨hxe, hxc⟩ := C.entry q x hx
      refine ⟨hxe.trans (Prod.ext ?_ (congrArg Prod.snd (A.data q hq)).symm), hxc⟩
      have hslot : g.timeSlot q = w.timeSlot q := congrArg Prod.fst (A.data q hq)
      show w.remaining q = g.remaining q
      unfold remaining
      rw [A.rotation, Function.update_of_ne hq, A.curSlot, hslot]

theorem del_counts {p : Ptr} (ha : (WheelOp.del p).Allowed w) :
    ∃ xs', Counts (s.step (.del p)) (w.delTimer p) xs' ∧ ∀ i, (xs' i).length ≤ (xs i).length := by
  obtain ⟨hi, hm⟩ := C.home ((C.live p).mp ha.2)
  obtain ⟨ys, r, hx⟩ := List.append_of_mem hm
  have hnd := C.wheeled.nodup _ hi
  rw [hx] at hnd
  obtain ⟨W, hfd, hr⟩ := delTimer_spec C.wheeled hi hx
  have hself : s.step (.del p) p = none := Function.update_self _ _ _
  have hother : ∀ q, q ≠ p → s.step (.del p) q = s q := fun q hq => Function.update_of_ne hq _ _
  refine ⟨_, ⟨W, ?_, ?_, ?_⟩, ?_⟩
  · intro q
    by_cases hq : q = p
    · subst hq
      rw [hself]
      simp only [Option.isSome_none, Bool.false_eq_true, iff_false]
      rintro ⟨j, hj, hqj⟩
      by_cases hji : j = w.timeSlot q
      · rw [hji, Function.update_self] at hqj
        grind
      · rw [Function.update_of_ne hji] at hqj
        exact hji (C.wheeled.home j hj q hqj).symm
    · rw [hother q hq, ← C.mem_iff]
      apply exists_congr
      intro j
      by_cases hji : j = w.timeSlot p
      · rw [hji, Function.update_self, hx]
        simp [hq]
      · rw [Function.update_of_ne hji]
  · intro q
    rw [hfd.live, C.live]
    by_cases hq : q = p
    · simp [hq, hself]
    · simp [hq, hother q hq]
  · intro q x hx
    by_cases hq : q = p
    · rw [hq, hself] at hx
      cases hx
    · rw [hother q hq] at hx
      obtain ⟨hxe, hxc⟩ := C.entry q x hx
      refine ⟨hxe.trans (Prod.ext ?_ (congrArg Prod.snd (hfd.data q)).symm), hxc⟩
      show w.remaining q = (w.delTimer p).remaining q
      unfold remaining
      rw [hr, hfd.curSlot, show (w.delTimer p).timeSlot q = w.timeSlot q from
        congrArg Prod.fst (hfd.data q)]
  · intro i
    by_cases hiw : i = w.timeSlot p
    · rw [hiw, Function.update_self, hx]
      simp
    · rw [Function.update_of_ne hiw]

/-- Whether a timer of the wheel has one tick left is decided by its slot and its rotation. -/
theorem Counts.remaining_eq_one {p : Ptr} (hp : (s p).isSome) :
    w.remaining p = 1 ↔ p ∈ xs w.curSlot ∧ w.rotation p = 0 := by
  obtain ⟨hi, hm⟩ := C.home hp
  have hc := C.wheeled.cur_lt
  unfold remaining
  by_cases hts : w.timeSlot p = w.curSlot
  · rw [hts, remaining_here, ← hts]
    have hN : 0 < N := by decide
    constructor
    · intro h1
      refine ⟨hm, ?_⟩
      rcases Nat.eq_zero_or_pos (w.rotation p) with h0 | h0
      · exact h0
      · have := Nat.mul_pos h0 hN
        omega
    · rintro ⟨-, h0⟩
      rw [h0, Nat.zero_mul]
  · obtain ⟨h1, -⟩ := @remaining_away (w.rotation p) _ _ hi hc hts
    constructor
    · intro h
      omega
    · rintro ⟨hmc, -⟩
      exact absurd (C.wheeled.home _ hc p hmc) hts

/-- One tick takes one from what a timer that does not fire has left. -/
theorem Counts.remaining_tick {p : Ptr} (hp : (s p).isSome) (h1 : w.remaining p ≠ 1) {w' : TimeWheel}
    (hcur : w'.curSlot = (w.curSlot + 1) % N) (hts : w'.timeSlot p = w.timeSlot p)
    (hrot : w'.rotation p = if p ∈ xs w.curSlot then w.rotation p - 1 else w.rotation p) :
    w'.remaining p = w.remaining p - 1 := by
  obtain ⟨hi, hm⟩ := C.home hp
  have hc := C.wheeled.cur_lt
  unfold remaining
  rw [hcur, hts, hrot]
  by_cases hh : w.timeSlot p = w.curSlot
  · have hmc : p ∈ xs w.curSlot := hh ▸ hm
    have h0 : w.rotation p ≠ 0 := fun h0 => h1 ((C.remaining_eq_one hp).mpr ⟨hmc, h0⟩)
    rw [if_pos hmc, hh, remaining_here_next (Nat.pos_of_ne_zero h0) hc, remaining_here]
    rfl
  · have hmc : p ∉ xs w.curSlot := fun hmc => hh (C.wheeled.home _ hc p hmc)
    rw [if_neg hmc, (remaining_away hi hc hh).2]
    rfl

/-- A tick fires the timers of the current slot with no rotation left: those with one tick left. -/
theorem Counts.mem_due {p : Ptr} :
    p ∈ (xs w.curSlot).filter (fun p => w.rotation p = 0) ↔ ∃ call, s p = some (1, call) := by
  rw [List.mem_filter, decide_eq_true_eq]
  constructor
  · rintro ⟨hp, h0⟩
    obtain ⟨x, hx⟩ := Option.isSome_iff_exists.mp ((C.mem_iff p).mp ⟨_, C.wheeled.cur_lt, hp⟩)
    have h1 := (C.remaining_eq_one (by rw [hx]; rfl)).mpr ⟨hp, h0⟩
    refine ⟨(w.mem.cell p).call, ?_⟩
    rw [hx, (C.entry p x hx).1, h1]
  · rintro ⟨call, hcall⟩
    have h1 := congrArg Prod.fst (C.entry p _ hcall).1
    exact (C.remaining_eq_one (by rw [hcall]; rfl)).mp h1.symm

/-- What a tick makes of a timer that is counted down. -/
theorem Counts.step_tick {p : Ptr} {x : ℕ × Call} (hx : s p = some x) :
    s.step .tick p =
      if w.remaining p = 1 then none else some (w.remaining p - 1, (w.mem.cell p).call) := by
  show (s p).bind _ = _
  rw [hx, Option.bind_some, (C.entry p x hx).1]
  have h0 : 0 < w.remaining p := Nat.succ_pos _
  by_cases h1 : w.remaining p = 1
  · rw [if_pos h1, if_pos h1.le]
  · rw [if_neg h1, if_neg (by dsimp only; omega)]

/-- The timers left in the slots after a tick. -/
theorem Counts.mem_tick (p : Ptr) :
    (∃ i < N, p ∈ Function.update xs w.curSlot
        ((xs w.curSlot).filter fun p => 0 < w.rotation p) i) ↔ (s.step .tick p).isSome := by
  have hc := C.wheeled.cur_lt
  cases hs : s p with
  | none =>
    have hdead : s.step .tick p = none := Countdown.step_none hs nofun
    rw [hdead]
    simp only [Option.isSome_none, Bool.false_eq_true, iff_false]
    rintro ⟨i, hi, hp⟩
    have hp' : p ∈ xs i := by
      by_cases hic : i = w.curSlot
      · rw [hic, Function.update_self] at hp
        exact hic ▸ List.mem_of_mem_filter hp
      · rwa [Function.update_of_ne hic] at hp
    have := (C.mem_iff p).mp ⟨i, hi, hp'⟩
    rw [hs] at this
    cases this
  | some x =>
    have hsome : (s p).isSome := by rw [hs]; rfl
    obtain ⟨hi, hm⟩ := C.home hsome
    rw [C.step_tick hs]
    by_cases h1 : w.remaining p = 1
    · obtain ⟨hpc, h0⟩ := (C.remaining_eq_one hsome).mp h1
      rw [if_pos h1]
      simp only [Option.isSome_none, Bool.false_eq_true, iff_false]
      rintro ⟨i, hi', hp⟩
      by_cases hic : i = w.curSlot
      · rw [hic, Function.update_self, List.mem_filter, h0] at hp
        simp at hp
      · rw [Function.update_of_ne hic] at hp
        exact C.wheeled.apart hc hi' hic hpc hp rfl
    · rw [if_neg h1]
      simp only [Option.isSome_some, iff_true]
      refine ⟨w.timeSlot p, hi, ?_⟩
      by_cases hic : w.timeSlot p = w.curSlot
      · rw [hic, Function.update_self, List.mem_filter, decide_eq_true_eq]
        refine ⟨hic ▸ hm, Nat.pos_of_ne_zero fun h0 => h1 ?_⟩
        exact (C.remaining_eq_one hsome).mpr ⟨hic ▸ hm, h0⟩
      · rwa [Function.update_of_ne hic]

/-- Of the calls of a tick, those for one timer are what the countdown gives. -/
theorem Counts.fired_of (p : Ptr) :
    ((((xs w.curSlot).filter fun p => w.rotation p = 0).map fun q =>
      (q, (w.mem.cell q).call)).filter fun f => f.1 = p) = s.fires p := by
  have hnd : ((xs w.curSlot).filter fun p => w.rotation p = 0).Nodup :=
    (C.wheeled.nodup _ C.wheeled.cur_lt).filter _
  rw [List.filter_map]
  have hp : (fun f : Ptr × Call => decide (f.1 = p)) ∘ (fun q => (q, (w.mem.cell q).call)) =
      fun q => decide (q = p) := rfl
  rw [hp]
  by_cases hm : p ∈ (xs w.curSlot).filter fun p => w.rotation p = 0
  · obtain ⟨call, hcall⟩ := C.mem_due.mp hm
    have hc' : (w.mem.cell p).call = call := (congrArg Prod.snd (C.entry p _ hcall).1).symm
    rw [List.filter_eq, List.count_eq_one_of_mem hnd hm, Countdown.fires_some hcall, if_pos rfl]
    show [(p, (w.mem.cell p).call)] = _
    rw [hc']
  · rw [List.filter_eq, List.count_eq_zero_of_not_mem hm, List.replicate_zero, List.map_nil]
    cases hs : s p with
    | none => rw [Countdown.fires_none hs]
    | some x =>
      rw [@Countdown.fires_some s p x.1 x.2 hs, if_neg]
      rintro h1
      exact hm (C.mem_due.mpr ⟨x.2, by rw [hs, ← h1]⟩)

theorem tick_counts {fuel : ℕ} (hf : (xs w.curSlot).length < fuel) :
    ∃ w' fired xs', w.tick fuel = some (w', fired) ∧ Counts (s.step .tick) w' xs' ∧
      (∀ i, (xs' i).length ≤ (xs i).length) ∧
      ∀ p, (fired.filter fun f => f.1 = p) = s.fires p := by
  obtain ⟨w', ht, W', hcur, hlive, hdata, hrot⟩ :=
    tick_spec C.wheeled hf fun p hp => C.cbFunc_ne C.wheeled.cur_lt hp
  have hts : ∀ p, w'.timeSlot p = w.timeSlot p := fun p => congrArg Prod.fst (hdata p)
  have hdead : ∀ p, s p = none → s.step .tick p = none := fun p hp =>
    Countdown.step_none hp nofun
  refine ⟨w', _, _, ht, ⟨W', C.mem_tick, ?_, ?_⟩, ?_, C.fired_of⟩
  · intro p
    rw [hlive, C.mem_due, C.live]
    cases hs : s p with
    | none =>
      rw [hdead p hs]
      simp
    | some x =>
      rw [C.step_tick hs, (C.entry p x hs).1]
      by_cases h1 : w.remaining p = 1
      · simp [h1]
      · simp [h1]
  · intro p x hx
    cases hs : s p with
    | none =>
      rw [hdead p hs] at hx
      cases hx
    | some y =>
      have hsome : (s p).isSome := by rw [hs]; rfl
      rw [C.step_tick hs] at hx
      by_cases h1 : w.remaining p = 1
      · rw [if_pos h1] at hx
        cases hx
      · rw [if_neg h1] at hx
        cases hx
        have hcall : (w'.mem.cell p).call = (w.mem.cell p).call := congrArg Prod.snd (hdata p)
        rw [C.remaining_tick hsome h1 hcur (hts p) (hrot p), hcall]
        obtain ⟨hye, hyc⟩ := C.entry p y hs
        rw [hye] at hyc
        exact ⟨rfl, hyc⟩
  · intro i
    by_cases hic : i = w.curSlot
    · rw [hic, Function.update_self]
      exact List.length_filter_le _ _
    · rw [Function.update_of_ne hic]

end Operations

theorem init_counts {mem : Mem TwTimer} (hl : ∀ p, mem.live p = false) (hf : mem.faults = []) :
    Counts (fun _ => none) (.init mem) fun _ => [] where
  wheeled := ⟨show 0 < N by decide, fun _ _ => ⟨0, rfl, rfl⟩, fun _ _ => List.nodup_nil, by simp, by simp, hf⟩
  mem_iff p := by simp
  live p := by simp [TimeWheel.init, hl]
  entry p x hx := by cases hx

/-- Every allowed operation terminates and keeps `Counts`; a tick fires what the countdown does. -/
theorem exec_counts {s : Countdown} {w : TimeWheel} {xs : ℕ → List Ptr} {op : WheelOp} {n fuel : ℕ}
    (C : Counts s w xs) (hx : ∀ i, (xs i).length ≤ n) (hn : n < fuel) (ha : op.Allowed w) :
    ∃ w' fired xs', w.exec fuel op = some (w', fired) ∧ Counts (s.step op) w' xs' ∧
      (∀ i, (xs' i).length ≤ n + 1) ∧
      (op = .tick → ∀ p, (fired.filter fun f => f.1 = p) = s.fires p) := by
  cases op with
  | add p timeout call =>
    refine ⟨_, [], _, rfl, add_counts C ha, ?_, nofun⟩
    intro i
    by_cases hi : i = w.slotFor timeout
    · rw [hi, Function.update_self, List.length_cons]
      exact Nat.succ_le_succ (hx _)
    · rw [Function.update_of_ne hi]
      exact (hx i).trans n.le_succ
  | del p =>
    obtain ⟨xs', C', hlen⟩ := del_counts C ha
    exact ⟨_, [], xs', rfl, C', fun i => ((hlen i).trans (hx i)).trans n.le_succ, nofun⟩
  | tick =>
    obtain ⟨w', fired, xs', ht, C', hlen, hfire⟩ := tick_counts C ((hx w.curSlot).trans_lt hn)
    exact ⟨w', fired, xs', ht, C', fun i => ((hlen i).trans (hx i)).trans n.le_succ,
      fun _ => hfire⟩

/-! ## Runs -/

section Runs

variable {mem : Mem TwTimer} {fuel : ℕ} {w : TimeWheel} {as : List (WheelOp × List (Ptr × Call))}

theorem counts_of_run (hl : ∀ p, mem.live p = false) (hf : mem.faults = [])
    (hr : Run (WheelStep fuel) (.init mem) as w) (hn : as.length < fuel) :
    ∃ xs, Counts (.after (as.map Prod.fst)) w xs ∧ ∀ i, (xs i).length ≤ as.length := by
  refine hr.history (fun as w => as.length < fuel → ∃ xs, Counts (.after (as.map Prod.fst)) w xs ∧
    ∀ i, (xs i).length ≤ as.length) (fun _ => ⟨_, init_counts hl hf, by simp⟩) ?_ hn
  rintro as w ⟨op, fired⟩ w' hC ⟨ha, hex⟩ hlen
  rw [List.length_append, List.length_singleton] at hlen ⊢
  have hlt : as.length < fuel := by omega
  obtain ⟨xs, C, hx⟩ := hC hlt
  obtain ⟨w'', fired', xs', hex', C', hx', -⟩ := exec_counts C hx hlt ha
  dsimp only at hex
  rw [hex'] at hex
  obtain ⟨rfl, -⟩ := Prod.mk.inj (Option.some.inj hex)
  refine ⟨xs', ?_, hx'⟩
  rw [List.map_append, List.map_singleton, Countdown.after, List.foldl_append]
  exact C'

/-- The ticks of a run fire what the countdown fires. -/
theorem fired_of_run (hl : ∀ p, mem.live p = false) (hf : mem.faults = [])
    (hr : Run (WheelStep fuel) (.init mem) as w) (hn : as.length < fuel)
    {u rest : List (WheelOp × List (Ptr × Call))} {fired : List (Ptr × Call)}
    (has : as = u ++ (.tick, fired) :: rest) (p : Ptr) :
    (fired.filter fun f => f.1 = p) = (Countdown.after (u.map Prod.fst)).fires p := by
  subst has
  obtain ⟨w₁, hr₁, hr₂⟩ := hr.split
  cases hr₂ with
  | cons hs _ =>
    rw [List.length_append] at hn
    have hu : u.length < fuel := by omega
    obtain ⟨xs, C, hx⟩ := counts_of_run hl hf hr₁ hu
    obtain ⟨w', fired', xs', hex', -, -, hfire⟩ := exec_counts C hx hu hs.1
    rw [hs.2] at hex'
    obtain ⟨-, rfl⟩ := Prod.mk.inj (Option.some.inj hex')
    exact hfire rfl p

end Runs

end TimeWheel

/-- **The time wheel counts down.** In every state that a run from the empty wheel reaches each
allowed operation terminates, and no step has faulted. A timer added with some timeout fires on the
`delay`-th tick after its addition, once and with its callback, and on no other tick, unless it is
deleted before; the tick in question is any one before the address is given to another timer. The
live timers at the end are those of the countdown, with `remaining` ticks left. -/
theorem wheel_countdown {mem : Mem TwTimer} (hl : ∀ p, mem.live p = false) (hf : mem.faults = [])
    {fuel : ℕ} {w : TimeWheel} {as : List (WheelOp × List (Ptr × Call))}
    (hr : Run (WheelStep fuel) (.init mem) as w) (hn : as.length < fuel) :
    (∀ op : WheelOp, op.Allowed w → ∃ w' fired, w.exec fuel op = some (w', fired)) ∧
      w.mem.faults = [] ∧
      (∀ u v rest p timeout call none fired,
        as = u ++ (.add p timeout call, none) :: v ++ (.tick, fired) :: rest →
        (∀ timeout' call', .add p timeout' call' ∉ v.map Prod.fst) →
        (fired.filter fun f => f.1 = p) =
          if .del p ∉ v.map Prod.fst ∧
              (v.map Prod.fst).count .tick + 1 = (max 1 (timeout / TimeWheel.SI)).toNat + 1 then
            [(p, call)]
          else []) ∧
      (∀ p, w.mem.live p = true ↔ (Countdown.after (as.map Prod.fst) p).isSome) ∧
      ∀ p, ∀ x ∈ Countdown.after (as.map Prod.fst) p,
        x = (w.rotation p * TimeWheel.N +
          (w.timeSlot p + TimeWheel.N - w.curSlot) % TimeWheel.N + 1, (w.mem.cell p).call) := by
  obtain ⟨xs, C, hx⟩ := TimeWheel.counts_of_run hl hf hr hn
  refine ⟨?_, C.wheeled.faults, ?_, C.live, fun p x hxp => (C.entry p x hxp).1⟩
  · intro op ha
    obtain ⟨w', fired, xs', hex, -⟩ := TimeWheel.exec_counts C hx hn ha
    exact ⟨w', fired, hex⟩
  · intro u v rest p timeout call f fired has hadd
    rw [TimeWheel.fired_of_run hl hf hr hn has p]
    -- the countdown starts at `delay` and has lost one tick for each of `v`
    have hself : (Countdown.after (u.map Prod.fst)).step (.add p timeout call) p =
        some (delay timeout, call) := Function.update_self _ _ _
    have hat : Countdown.after ((u ++ (.add p timeout call, f) :: v).map Prod.fst) p =
        if .del p ∉ v.map Prod.fst ∧ (v.map Prod.fst).count .tick < delay timeout then
          some (delay timeout - (v.map Prod.fst).count .tick, call) else none := by
      rw [List.map_append, List.map_cons, Countdown.after, List.foldl_append, List.foldl_cons]
      exact Countdown.foldl_some hself (Nat.succ_pos _) hadd
    set k := (v.map Prod.fst).count .tick
    show _ = if .del p ∉ v.map Prod.fst ∧ k + 1 = delay timeout then [(p, call)] else []
    by_cases hlive : .del p ∉ v.map Prod.fst ∧ k < delay timeout
    · rw [if_pos hlive] at hat
      rw [Countdown.fires_some hat]
      by_cases hk : k + 1 = delay timeout
      · have h1 : delay timeout - k = 1 := by omega
        rw [if_pos h1, if_pos ⟨hlive.1, hk⟩]
      · have h1 : delay timeout - k ≠ 1 := by omega
        rw [if_neg h1, if_neg fun h => hk h.2]
    · rw [if_neg hlive] at hat
      rw [Countdown.fires_none hat, if_neg]
      rintro ⟨hdel, hk⟩
      exact hlive ⟨hdel, by omega⟩

/-- A timeout of 0 waits for one tick and fires on the next. -/
theorem wheel_countdown_two :
    let as : List (WheelOp × List (Ptr × Call)) :=
      [(.add 8 0 ⟨1, 7⟩, []), (.tick, []), (.tick, [(8, ⟨1, 7⟩)])]
    ∃ w, Run (WheelStep 4) (.init (Mem.blank ⟨0, 0, 0, 0, 0, 0⟩)) as w ∧ w.mem.faults = [] ∧
      ([(8, ⟨1, 7⟩)] : List (Ptr × Call)).filter (fun f => f.1 = 8) = [(8, ⟨1, 7⟩)] := by
  intro as
  have hr : Run (WheelStep 4) (.init (Mem.blank ⟨0, 0, 0, 0, 0, 0⟩)) as _ :=
    .cons ⟨by decide, rfl⟩ (.cons ⟨by decide, rfl⟩ (.cons ⟨by decide, rfl⟩ (.nil _)))
  obtain ⟨-, hfl, hfire, -⟩ := wheel_countdown (fun _ => rfl) rfl hr (by decide)
  refine ⟨_, hr, hfl, ?_⟩
  exact hfire [] [(.tick, [])] [] 8 0 ⟨1, 7⟩ [] _ rfl (by simp)

end SocketTest.Timer
