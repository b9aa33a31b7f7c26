import SocketTest.Lib.Settles
import SocketTest.ThreadPool.WorkQueue

/-!
# The pool comes to rest

When nobody calls `append` any more and no `wait` is interrupted, the threads have a number of steps
left that is bounded by what is on its way: a push that is to be posted, a wake-up that is to be
waited for, a worker that is to look into the queue and one that is in `process`, which returns. At the
end nothing is left of any of them (`comes_to_idle`).
-/

namespace SocketTest.ThreadPool

open SocketTest.Lib

variable {A W T : Type*} {as : List (Act A W T)}

/-- The steps with which the threads go on. -/
def Act.Inner : Act A W T → Prop
  | .push _ _ | .refuse _ _ | .interrupted _ => False
  | .post _ _ | .wait _ | .pop _ _ | .popEmpty _ | .processed _ => True

def Worker.Busy (p : Worker T) : Prop := ∃ request, p = .processing request

instance : DecidablePred (Worker.Busy (T := T)) := fun p =>
  match p with
  | .waiting => .isFalse (fun ⟨_, h⟩ => by cases h)
  | .woken => .isFalse (fun ⟨_, h⟩ => by cases h)
  | .processing request => .isTrue ⟨request, rfl⟩

theorem Worker.take_busy (request : Option T) : (Worker.take request).Busy ↔ request.isSome := by
  cases request with
  | none => exact iff_of_false (fun ⟨_, h⟩ => by cases h) Bool.false_ne_true
  | some request => exact iff_of_true ⟨request, rfl⟩ rfl

theorem Worker.not_busy {p : Worker T} (h : p = .waiting ∨ p = .woken) : ¬ p.Busy := by
  rintro ⟨request, rfl⟩
  rcases h with h | h <;> cases h

variable [DecidableEq W]

/-! ## What has been finished -/

/-- The requests that the worker has taken to `process`. -/
def taken (as : List (Act A W T)) (w : W) : ℕ :=
  ((pops as).filter fun p => p.1 = w ∧ p.2.isSome).length

/-- The calls of `process` that have returned to the worker. -/
def finished (as : List (Act A W T)) (w : W) : ℕ :=
  (as.filter fun act => match act with | .processed x => x = w | _ => false).length

/-- A worker has finished with every request it has taken, but for the one it is busy with. -/
def Finishes (as : List (Act A W T)) (s : Threadpool A W T) : Prop :=
  ∀ w, taken as w = finished as w + if (s.worker w).Busy then 1 else 0

theorem taken_concat (as : List (Act A W T)) (act : Act A W T) (w : W) :
    taken (as ++ [act]) w = taken as w + taken [act] w := by
  unfold taken pops
  rw [List.filterMap_append, List.filter_append, List.length_append]

theorem finished_concat (as : List (Act A W T)) (act : Act A W T) (w : W) :
    finished (as ++ [act]) w = finished as w + finished [act] w := by
  unfold finished
  rw [List.filter_append, List.length_append]

theorem taken_pop (x w : W) (request : Option T) :
    taken [(.pop x request : Act A W T)] w = if x = w ∧ request.isSome then 1 else 0 := by
  by_cases h : x = w ∧ request.isSome
  · rw [if_pos h]
    simp [taken, pops, h]
  · rw [if_neg h]
    simpa [taken, pops] using h

theorem finished_processed (x w : W) :
    finished [(.processed x : Act A W T)] w = if x = w then 1 else 0 := by
  by_cases h : x = w
  · rw [if_pos h]
    simp [finished, h]
  · rw [if_neg h]
    simp [finished, h]

/-- A worker moves that is busy behind the step as it was before. -/
theorem busy_update {worker : W → Worker T} {x : W} {p : Worker T}
    (hp : p.Busy ↔ (worker x).Busy) (w : W) :
    (Function.update worker x p w).Busy ↔ (worker w).Busy := by
  by_cases hw : w = x
  · subst hw
    rw [Function.update_self]
    exact hp
  · rw [Function.update_of_ne hw]

variable [DecidableEq A] {maxRequests : ℕ} {s t : Threadpool A W T} {act : Act A W T}

theorem Finishes.step (h : Finishes as s) (hs : Step maxRequests s act t) :
    Finishes (as ++ [act]) t := by
  intro w
  have hw := h w
  rw [taken_concat, finished_concat]
  cases hs with
  | push | refuse | post => exact hw
  | @wait x hx | @interrupted x hx =>
    have hbusy : (Function.update s.worker x .woken w).Busy ↔ (s.worker w).Busy :=
      busy_update (iff_of_false (Worker.not_busy (.inr rfl)) (Worker.not_busy (.inl hx))) w
    exact hw.trans (congrArg _ (if_congr hbusy.symm rfl rfl))
  | @popEmpty x hx =>
    have hbusy : (Function.update s.worker x .waiting w).Busy ↔ (s.worker w).Busy :=
      busy_update (iff_of_false (Worker.not_busy (.inl rfl)) (Worker.not_busy (.inr hx))) w
    exact hw.trans (congrArg _ (if_congr hbusy.symm rfl rfl))
  | @pop x request q hx hq =>
    rw [taken_pop]
    show _ = finished as w + 0 +
      if (Function.update s.worker x (.take request) w).Busy then 1 else 0
    by_cases hxw : x = w
    · subst hxw
      rw [if_neg (Worker.not_busy (.inr hx))] at hw
      rw [hw, Function.update_self]
      exact congrArg _ (if_congr (by rw [Worker.take_busy, and_iff_right rfl]) rfl rfl)
    · rw [if_neg (fun h => hxw h.1), Function.update_of_ne (Ne.symm hxw)]
      exact hw
  | @processed x request hx =>
    rw [finished_processed]
    show taken as w + 0 = _ + if (Function.update s.worker x .waiting w).Busy then 1 else 0
    by_cases hxw : x = w
    · subst hxw
      rw [if_pos ⟨request, hx⟩] at hw
      rw [hw, Function.update_self, if_pos rfl, if_neg (Worker.not_busy (.inl rfl))]
    · rw [if_neg hxw, Function.update_of_ne (Ne.symm hxw)]
      exact hw

/-! ## The steps that are left -/

variable [Fintype A] [Fintype W]

/-- The steps left, each thing on its way counted with what comes after it. -/
def Threadpool.work (s : Threadpool A W T) : ℕ :=
  4 * standing Appender.Posts s.appender + 3 * s.queuestat + 2 * standing Worker.Woken s.worker +
    standing Worker.Busy s.worker

theorem inner_work (hs : Step maxRequests s act t) (hact : act.Inner) : t.work < s.work := by
  unfold Threadpool.work
  cases hs with
  | push | refuse | interrupted => exact hact.elim
  | @post a request ha =>
    have hpost : standing Appender.Posts (Function.update s.appender a .outside) + 1 =
        standing Appender.Posts s.appender :=
      standing_leave (by rw [ha]; exact List.cons_ne_nil request []) (not_not_intro rfl)
    dsimp only
    omega
  | @wait w hw hpos =>
    have hwoken : standing Worker.Woken (Function.update s.worker w .woken) =
        standing Worker.Woken s.worker + 1 :=
      standing_enter (by rw [hw]; exact fun h => by cases h) rfl
    have hbusy : standing Worker.Busy (Function.update s.worker w .woken) =
        standing Worker.Busy s.worker :=
      standing_stay (iff_of_false (Worker.not_busy (.inl hw)) (Worker.not_busy (.inr rfl)))
    dsimp only
    omega
  | @pop w request q hw hq =>
    have hwoken : standing Worker.Woken (Function.update s.worker w (.take request)) + 1 =
        standing Worker.Woken s.worker :=
      standing_leave hw (by cases request <;> exact fun h => by cases h)
    have hbusy := standing_update (Q := Worker.Busy) s.worker w (.take request)
    rw [if_neg (Worker.not_busy (.inr hw)), Nat.add_zero] at hbusy
    have hone : (if (Worker.take request).Busy then 1 else 0) ≤ 1 := by split_ifs <;> decide
    dsimp only
    omega
  | @popEmpty w hw hq =>
    have hwoken : standing Worker.Woken (Function.update s.worker w .waiting) + 1 =
        standing Worker.Woken s.worker := standing_leave hw (fun h => by cases h)
    have hbusy : standing Worker.Busy (Function.update s.worker w .waiting) =
        standing Worker.Busy s.worker :=
      standing_stay (iff_of_false (Worker.not_busy (.inr hw)) (Worker.not_busy (.inl rfl)))
    dsimp only
    omega
  | @processed w request hw =>
    have hwoken : standing Worker.Woken (Function.update s.worker w .waiting) =
        standing Worker.Woken s.worker :=
      standing_stay (iff_of_false (by rw [hw]; exact fun h => by cases h) (fun h => by cases h))
    have hbusy : standing Worker.Busy (Function.update s.worker w .waiting) + 1 =
        standing Worker.Busy s.worker :=
      standing_leave ⟨request, hw⟩ (Worker.not_busy (.inl rfl))
    dsimp only
    omega

/-- A step of a pool that is left alone, with the steps before it. -/
def Proceed (maxRequests : ℕ) (h h' : List (Act A W T) × Threadpool A W T) : Prop :=
  ∃ act, act.Inner ∧ Step maxRequests h.2 act h'.2 ∧ h'.1 = h.1 ++ [act]

/-- What holds of the pool after the steps. -/
structure Tracked (h : List (Act A W T) × Threadpool A W T) : Prop where
  inOrder : InOrder h.1 h.2
  accounted : Accounted h.1 h.2
  awake : h.2.Awake
  finishes : Finishes h.1 h.2

theorem Tracked.step {h h' : List (Act A W T) × Threadpool A W T} (ht : Tracked h)
    (hs : Step maxRequests h.2 act h'.2) (heq : h'.1 = h.1 ++ [act]) : Tracked h' :=
  ⟨heq ▸ ht.inOrder.step hs, heq ▸ ht.accounted.step hs, ht.awake.step hs,
    heq ▸ ht.finishes.step hs⟩

theorem tracked_run (hr : Run (Step maxRequests) Threadpool.init as s) : Tracked (as, s) :=
  hr.history (fun as s => Tracked (as, s))
    ⟨rfl, fun _ => rfl, Nat.zero_le _, fun _ => if_neg (Worker.not_busy (.inl rfl)) ▸ rfl⟩
    (fun _ _ _ _ ht hs => ht.step hs rfl)

/-- All threads are outside `append` or in `wait`, with nothing to come; each request that `append`
has accepted has been popped, in the order of the pushes, and `process` has returned for each. -/
structure Idle (h : List (Act A W T) × Threadpool A W T) : Prop where
  workqueue : h.2.workqueue = []
  queuestat : h.2.queuestat = 0
  appender : ∀ a, h.2.appender a = .outside
  worker : ∀ w, h.2.worker w = .waiting
  accepted : ∀ a, (pushes h.1).filter (fun p => p.1 = a) = (accepted h.1).filter fun p => p.1 = a
  popped : (pushes h.1).map Prod.snd = (pops h.1).map Prod.snd
  finished : ∀ w, taken h.1 w = finished h.1 w

theorem Tracked.idle [Nonempty W] {h : List (Act A W T) × Threadpool A W T} (ht : Tracked h)
    (hstuck : Stuck (Proceed maxRequests) h) : Idle h := by
  obtain ⟨as, s⟩ := h
  have hstep (act : Act A W T) (t : Threadpool A W T) (hact : act.Inner) :
      ¬ Step maxRequests s act t := fun hs => hstuck (as ++ [act], t) ⟨act, hact, hs, rfl⟩
  have houtside : ∀ a, s.appender a = .outside := by
    intro a
    cases ha : s.appender a with
    | outside => rfl
    | pushed request => exact absurd (.post ha) (hstep (.post a request) _ trivial)
  have hwaiting : ∀ w, s.worker w = .waiting := by
    intro w
    cases hw : s.worker w with
    | waiting => rfl
    | woken =>
      cases hq : lockedPop s.workqueue with
      | none => exact absurd (.popEmpty hw hq) (hstep (.popEmpty w) _ trivial)
      | some r => exact absurd (.pop hw hq) (hstep (.pop w r.1) _ trivial)
    | processing request => exact absurd (.processed hw) (hstep (.processed w) _ trivial)
  have hzero : s.queuestat = 0 := by
    by_contra hne
    obtain ⟨w⟩ := ‹Nonempty W›
    exact hstep (.wait w) _ trivial (.wait (hwaiting w) (Nat.pos_of_ne_zero hne))
  have hempty : s.workqueue = [] := by
    have hawake := ht.awake
    unfold Threadpool.Awake at hawake
    have hposts : standing Appender.Posts s.appender = 0 :=
      standing_eq_zero.2 fun a => by rw [houtside a]; exact not_not_intro rfl
    have hwoken : standing Worker.Woken s.worker = 0 :=
      standing_eq_zero.2 fun w => by rw [hwaiting w]; exact fun h => by cases h
    exact List.length_eq_zero_iff.1 (by dsimp only at hawake; omega)
  refine ⟨hempty, hzero, houtside, hwaiting, fun a => ?_, ?_, fun w => ?_⟩
  · refine (ht.accounted a).trans ?_
    dsimp only
    rw [houtside a]
    exact List.append_nil _
  · have horder := ht.inOrder
    unfold InOrder at horder
    dsimp only at horder ⊢
    rw [horder, hempty, List.append_nil]
  · have hdone := ht.finishes w
    dsimp only at hdone ⊢
    rwa [if_neg (Worker.not_busy (.inl (hwaiting w)))] at hdone

/-- Left alone after any run, a pool with a worker comes to rest, idle, if each call of `process` returns. -/
theorem comes_to_idle [Nonempty W] (hr : Run (Step maxRequests) Threadpool.init as s) :
    Settles (Proceed maxRequests) Idle (as, s) :=
  .of_decreasing (fun h => h.2.work) (I := Tracked)
    (fun _ _ ht ⟨_, _, hs, heq⟩ => ht.step hs heq)
    (fun _ _ _ ⟨_, hact, hs, _⟩ => inner_work hs hact) (fun _ ht => ht.idle) (tracked_run hr)

/-- Two requests have been pushed, and one has been posted. -/
theorem comes_to_idle_two : Settles (Proceed 1) Idle
    ([.push () (some 7), .post () (some 7), .push () (some 8)],
      (⟨[some 7, some 8], 1, fun _ => .pushed (some 8), fun _ => .waiting⟩ :
        Threadpool Unit Unit ℕ)) := by
  have hr : Run (Step 1) Threadpool.init [.push () (some 7), .post () (some 7), .push () (some 8)]
      (⟨[some 7, some 8], 1, fun _ => .pushed (some 8), fun _ => .waiting⟩ :
        Threadpool Unit Unit ℕ) :=
    .cons (.push rfl rfl) (.cons (.post rfl) (.single (.push rfl rfl)))
  exact comes_to_idle hr

end SocketTest.ThreadPool
