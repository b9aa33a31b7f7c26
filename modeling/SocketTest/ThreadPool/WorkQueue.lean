import SocketTest.Lib.Run
import SocketTest.Lib.Threads

/-!
# The work queue of the thread pool

Any number of threads call `threadpool::append`, any number of workers are in `threadpool::run`. The
list and the semaphore change in separate steps, on both sides: the locked push and `post`, `wait` and
the locked pop. `wait` may also return without having decremented the semaphore. `m_stop` is false.

`hand_off` is about the requests on their way, `bounded_iff` about the length of the queue: the test in
`append` lets one request more in than `m_max_requests`.
-/

namespace SocketTest.ThreadPool

open SocketTest.Lib

variable {A W T : Type*}

/-! ## The queue -/

/-- What `append` does under the lock. A request is a pointer, which may be NULL. -/
def lockedPush (maxRequests : ℕ) (workqueue : List (Option T)) (request : Option T) :
    Option (List (Option T)) :=
  if maxRequests < workqueue.length then none else some (workqueue ++ [request])

/-- What `run` does under the lock. -/
def lockedPop : List (Option T) → Option (Option T × List (Option T))
  | [] => none
  | request :: workqueue => some (request, workqueue)

theorem lockedPush_some {maxRequests : ℕ} {q q' : List (Option T)} {r : Option T}
    (h : lockedPush maxRequests q r = some q') : q' = q ++ [r] := by
  rw [lockedPush] at h
  split_ifs at h
  exact (Option.some.inj h).symm

theorem lockedPop_some {q q' : List (Option T)} {r : Option T} (h : lockedPop q = some (r, q')) :
    q = r :: q' := by
  cases q with
  | nil => cases h
  | cons r₁ q₁ =>
    cases h
    rfl

theorem lockedPop_none {q : List (Option T)} (h : lockedPop q = none) : q = [] := by
  cases q with
  | nil => rfl
  | cons r₁ q₁ => cases h

/-! ## The threads -/

/-- A thread outside `append`, or in it between the push and `post`. -/
inductive Appender (T : Type*)
  | outside
  | pushed (request : Option T)

def Appender.request : Appender T → List (Option T)
  | .outside => []
  | .pushed request => [request]

/-- A worker before `wait`, between `wait` and the lock, or in `process`. -/
inductive Worker (T : Type*)
  | waiting
  | woken
  | processing (request : T)

/-- A NULL is not processed. -/
def Worker.take : Option T → Worker T
  | none => .waiting
  | some request => .processing request

def Appender.Posts (p : Appender T) : Prop := p.request ≠ []

instance : DecidablePred (Appender.Posts (T := T)) := fun p =>
  match p with
  | .outside => .isFalse (fun h => h rfl)
  | .pushed request => .isTrue (List.cons_ne_nil request [])

def Worker.Woken (p : Worker T) : Prop := p = .woken

instance : DecidablePred (Worker.Woken (T := T)) := fun p =>
  match p with
  | .waiting => .isFalse (fun h => by cases h)
  | .woken => .isTrue rfl
  | .processing _ => .isFalse (fun h => by cases h)

structure Threadpool (A W T : Type*) where
  workqueue : List (Option T)
  queuestat : ℕ
  appender : A → Appender T
  worker : W → Worker T

/-- The constructor, with the workers created. -/
def Threadpool.init : Threadpool A W T := ⟨[], 0, fun _ => .outside, fun _ => .waiting⟩

/-- The atomic steps; `refuse` and `post` are those with which `append` returns. -/
inductive Act (A W T : Type*)
  | push (a : A) (request : Option T)
  | refuse (a : A) (request : Option T)
  | post (a : A) (request : Option T)
  | wait (w : W)
  | interrupted (w : W)
  | pop (w : W) (request : Option T)
  | popEmpty (w : W)
  | processed (w : W)

section

variable [DecidableEq A] [DecidableEq W]

inductive Step (maxRequests : ℕ) : Threadpool A W T → Act A W T → Threadpool A W T → Prop
  | push {s : Threadpool A W T} {a : A} {request : Option T} {workqueue : List (Option T)} :
      s.appender a = .outside → lockedPush maxRequests s.workqueue request = some workqueue →
      Step maxRequests s (.push a request)
        { s with
          workqueue := workqueue
          appender := Function.update s.appender a (.pushed request) }
  | refuse {s : Threadpool A W T} {a : A} {request : Option T} :
      s.appender a = .outside → lockedPush maxRequests s.workqueue request = none →
      Step maxRequests s (.refuse a request) s
  | post {s : Threadpool A W T} {a : A} {request : Option T} :
      s.appender a = .pushed request →
      Step maxRequests s (.post a request)
        { s with
          queuestat := s.queuestat + 1
          appender := Function.update s.appender a .outside }
  | wait {s : Threadpool A W T} {w : W} :
      s.worker w = .waiting → 0 < s.queuestat →
      Step maxRequests s (.wait w)
        { s with
          queuestat := s.queuestat - 1
          worker := Function.update s.worker w .woken }
  | interrupted {s : Threadpool A W T} {w : W} :
      s.worker w = .waiting →
      Step maxRequests s (.interrupted w)
        { s with worker := Function.update s.worker w .woken }
  | pop {s : Threadpool A W T} {w : W} {request : Option T} {workqueue : List (Option T)} :
      s.worker w = .woken → lockedPop s.workqueue = some (request, workqueue) →
      Step maxRequests s (.pop w request)
        { s with
          workqueue := workqueue
          worker := Function.update s.worker w (Worker.take request) }
  | popEmpty {s : Threadpool A W T} {w : W} :
      s.worker w = .woken → lockedPop s.workqueue = none →
      Step maxRequests s (.popEmpty w)
        { s with worker := Function.update s.worker w .waiting }
  | processed {s : Threadpool A W T} {w : W} {request : T} :
      s.worker w = .processing request →
      Step maxRequests s (.processed w)
        { s with worker := Function.update s.worker w .waiting }

end

/-! ## What a run has done -/

/-- The pushes of a run, with the thread that made each. -/
def pushes (as : List (Act A W T)) : List (A × Option T) :=
  as.filterMap fun
    | .push a request => some (a, request)
    | _ => none

/-- The calls of `append` that have returned true. -/
def accepted (as : List (Act A W T)) : List (A × Option T) :=
  as.filterMap fun
    | .post a request => some (a, request)
    | _ => none

/-- The pops of a run, with the worker that made each. -/
def pops (as : List (Act A W T)) : List (W × Option T) :=
  as.filterMap fun
    | .pop w request => some (w, request)
    | _ => none

variable {as : List (Act A W T)}

/-- The requests are popped in the order of the pushes, each push by one pop, and what is not popped
is still in the queue. -/
def InOrder (as : List (Act A W T)) (s : Threadpool A W T) : Prop :=
  (pushes as).map Prod.snd = (pops as).map Prod.snd ++ s.workqueue

/-- Each thread's accepted requests are those it has pushed, but for the one it is about to post. -/
def Accounted [DecidableEq A] (as : List (Act A W T)) (s : Threadpool A W T) : Prop :=
  ∀ a, (pushes as).filter (fun p => p.1 = a) =
    (accepted as).filter (fun p => p.1 = a) ++ (s.appender a).request.map fun r => (a, r)

/-- Every queued request has a wake-up on the way. -/
def Threadpool.Awake [Fintype A] [Fintype W] (s : Threadpool A W T) : Prop :=
  s.workqueue.length ≤
    s.queuestat + standing Appender.Posts s.appender + standing Worker.Woken s.worker

section

variable [DecidableEq A] [DecidableEq W] {maxRequests : ℕ} {s t : Threadpool A W T} {act : Act A W T}

theorem InOrder.step (h : InOrder as s) (hs : Step maxRequests s act t) :
    InOrder (as ++ [act]) t := by
  unfold InOrder pushes pops at h ⊢
  rw [List.filterMap_append, List.filterMap_append, List.map_append, List.map_append, h]
  cases hs with
  | push _ hq =>
    rw [lockedPush_some hq]
    simp
  | pop _ hq =>
    rw [lockedPop_some hq]
    simp
  | refuse | post | wait | interrupted | popEmpty | processed => simp

theorem Accounted.step (h : Accounted as s) (hs : Step maxRequests s act t) :
    Accounted (as ++ [act]) t := by
  intro b
  have hb := h b
  unfold pushes accepted at hb ⊢
  rw [List.filterMap_append, List.filterMap_append, List.filter_append, List.filter_append, hb]
  cases hs with
  | @push a request _ ha _ =>
    by_cases hab : a = b
    · subst hab
      simp [ha, Appender.request]
    · simp [hab, Function.update_of_ne (Ne.symm hab)]
  | @post a request ha =>
    by_cases hab : a = b
    · subst hab
      simp [ha, Appender.request]
    · simp [hab, Function.update_of_ne (Ne.symm hab)]
  | refuse | wait | interrupted | pop | popEmpty | processed => simp

variable [Fintype A] [Fintype W]

theorem Threadpool.Awake.step (h : s.Awake) (hs : Step maxRequests s act t) : t.Awake := by
  unfold Threadpool.Awake at h ⊢
  cases hs with
  | @push a request _ ha hq =>
    have hpost : standing Appender.Posts (Function.update s.appender a (.pushed request)) =
        standing Appender.Posts s.appender + 1 :=
      standing_enter (by rw [ha]; exact not_not_intro rfl) (List.cons_ne_nil request [])
    simp only [lockedPush_some hq, hpost, List.length_append, List.length_singleton]
    omega
  | @post a request ha =>
    have hpost : standing Appender.Posts (Function.update s.appender a .outside) + 1 =
        standing Appender.Posts s.appender :=
      standing_leave (by rw [ha]; exact List.cons_ne_nil request []) (not_not_intro rfl)
    dsimp only
    omega
  | @wait w hw hpos =>
    have hwoken : standing Worker.Woken (Function.update s.worker w .woken) =
        standing Worker.Woken s.worker + 1 := standing_enter (by rw [hw]; nofun) rfl
    dsimp only
    omega
  | @interrupted w hw =>
    have hwoken : standing Worker.Woken (Function.update s.worker w .woken) =
        standing Worker.Woken s.worker + 1 := standing_enter (by rw [hw]; nofun) rfl
    dsimp only
    omega
  | @pop w request q hw hq =>
    have hwoken : standing Worker.Woken (Function.update s.worker w (Worker.take request)) + 1 =
        standing Worker.Woken s.worker :=
      standing_leave hw (by cases request <;> nofun)
    rw [lockedPop_some hq, List.length_cons] at h
    dsimp only
    omega
  | @popEmpty w hw hq =>
    rw [lockedPop_none hq]
    exact Nat.zero_le _
  | @processed w request hw =>
    rw [standing_stay (by rw [hw]; exact ⟨nofun, nofun⟩)]
    exact h
  | refuse => exact h

/-- What holds of the queue after the steps `as`. -/
structure HandOff (as : List (Act A W T)) (s : Threadpool A W T) : Prop where
  inOrder : InOrder as s
  accounted : Accounted as s
  awake : s.Awake
  /-- with every worker asleep, a queued request is one that is about to be posted -/
  notStranded : s.workqueue ≠ [] → s.queuestat = 0 → (∀ w, s.worker w ≠ .woken) →
    ∃ a request, s.appender a = .pushed request

/-- **Hand-off.** It holds under every interleaving. -/
theorem hand_off (hr : Run (Step maxRequests) Threadpool.init as s) : HandOff as s := by
  have hall := hr.history (fun as s => InOrder as s ∧ Accounted as s ∧ s.Awake)
    ⟨rfl, fun a => rfl, Nat.zero_le _⟩
    fun as s act t h hs => ⟨h.1.step hs, h.2.1.step hs, h.2.2.step hs⟩
  obtain ⟨hinOrder, haccounted, hawake⟩ := hall
  refine ⟨hinOrder, haccounted, hawake, ?_⟩
  intro hne hzero hasleep
  have hlen : 0 < s.workqueue.length := List.length_pos_of_ne_nil hne
  have hwoken : standing Worker.Woken s.worker = 0 := standing_eq_zero.mpr hasleep
  unfold Threadpool.Awake at hawake
  have hposts : 0 < standing Appender.Posts s.appender := by omega
  obtain ⟨a, ha⟩ := standing_pos_iff.mp hposts
  refine ⟨a, ?_⟩
  cases hpc : s.appender a with
  | outside => exact absurd rfl (hpc ▸ ha)
  | pushed request => exact ⟨request, rfl⟩

end

/-- One request on its way from `append` to a worker. -/
theorem hand_off_one : ∃ s : Threadpool Unit Unit ℕ,
    HandOff [.push () (some 7), .post () (some 7), .wait (), .pop () (some 7)] s := by
  refine ⟨⟨[], 0, fun _ => .outside, fun _ => .processing 7⟩, ?_⟩
  have hr : Run (Step 1) Threadpool.init
      [.push () (some 7), .post () (some 7), .wait (), .pop () (some 7)]
      (⟨[], 0, fun _ => .outside, fun _ => .processing 7⟩ : Threadpool Unit Unit ℕ) :=
    .cons (.push rfl rfl) (.cons (.post rfl) (.cons (.wait rfl Nat.one_pos)
      (.cons (.pop rfl rfl) (.nil _))))
  exact hand_off hr

/-! ## The bound -/

/-- The step is the locked part of an `append`. -/
def Act.Checks : Act A W T → Prop
  | .push _ _ => True
  | .refuse _ _ => True
  | _ => False

/-- The queue stays in its bound, and `append` returns false exactly at the bound and without effect. -/
structure Bounded (maxRequests : ℕ) (s : Threadpool A W T) (act : Act A W T) (t : Threadpool A W T) :
    Prop where
  length_le : t.workqueue.length ≤ maxRequests
  refuses : act.Checks → ((∃ a request, act = .refuse a request) ↔ s.workqueue.length = maxRequests)
  unchanged : (∃ a request, act = .refuse a request) →
    t.workqueue = s.workqueue ∧ t.queuestat = s.queuestat

/-- No locked check of an `append` comes upon `m_max_requests` requests. -/
def NotFull (maxRequests : ℕ) (s : Threadpool A W T) (act : Act A W T) (_ : Threadpool A W T) : Prop :=
  act.Checks → s.workqueue.length ≠ maxRequests

section

variable [DecidableEq A] [DecidableEq W] {maxRequests : ℕ} {s t : Threadpool A W T} {act : Act A W T}

theorem lockedPush_none {q : List (Option T)} {r : Option T} (h : lockedPush maxRequests q r = none) :
    maxRequests < q.length := by
  rw [lockedPush] at h
  split_ifs at h with hlt
  exact hlt

/-- A push takes the queue to one above the bound when it is at the bound. -/
theorem length_step (hs : Step maxRequests s act t) : t.workqueue.length ≤ s.workqueue.length ∨
    act.Checks ∧ t.workqueue.length = s.workqueue.length + 1 := by
  cases hs with
  | push _ hq =>
    right
    rw [lockedPush_some hq]
    exact ⟨trivial, List.length_append⟩
  | pop _ hq =>
    left
    rw [lockedPop_some hq]
    exact Nat.le_succ _
  | refuse | post | wait | interrupted | popEmpty | processed => exact .inl le_rfl

theorem length_le_step (h : s.workqueue.length ≤ maxRequests) (hs : Step maxRequests s act t)
    (hfull : NotFull maxRequests s act t) : t.workqueue.length ≤ maxRequests := by
  rcases length_step hs with hle | ⟨hchecks, heq⟩
  · omega
  · have := hfull hchecks
    omega

theorem Bounded.of_notFull (h : s.workqueue.length ≤ maxRequests) (hs : Step maxRequests s act t)
    (hfull : NotFull maxRequests s act t) : Bounded maxRequests s act t := by
  have hnot : ¬ ∃ a request, act = .refuse a request := by
    rintro ⟨a, request, rfl⟩
    cases hs with
    | refuse _ hq => exact absurd (lockedPush_none hq) (not_lt.2 h)
  exact ⟨length_le_step h hs hfull, fun hchecks => iff_of_false hnot (hfull hchecks),
    fun hrefuse => absurd hrefuse hnot⟩

/-- A check at the bound does not refuse. -/
theorem Bounded.notFull (h : Bounded maxRequests s act t) (hs : Step maxRequests s act t) :
    NotFull maxRequests s act t := by
  intro hchecks hlen
  obtain ⟨a, request, rfl⟩ := (h.refuses hchecks).2 hlen
  cases hs with
  | refuse _ hq => exact absurd (lockedPush_none hq) (not_lt.2 hlen.le)

/-- **The bound.** Under every interleaving it is kept exactly when it is not reached. -/
theorem bounded_iff (maxRequests : ℕ) (as : List (Act A W T)) :
    Run.Each (Step maxRequests) (Bounded maxRequests) Threadpool.init as ↔
      Run.Each (Step maxRequests) (NotFull maxRequests) Threadpool.init as := by
  constructor
  · intro hall pre act post s t has hr hs
    exact (hall pre act post s t has hr hs).notFull hs
  · intro hall pre act post s t has hr hs
    have hle : s.workqueue.length ≤ maxRequests :=
      hall.always (I := fun s => s.workqueue.length ≤ maxRequests)
        (fun _ _ _ => length_le_step) (Nat.zero_le _) pre s ⟨_, has.symm⟩ hr
    exact .of_notFull hle hs (hall pre act post s t has hr hs)

end

/-- A pool for one request takes two. -/
theorem second_not_refused : ¬ Run.Each (Step 1) (Bounded 1)
    (Threadpool.init : Threadpool Unit Unit ℕ) [.push () (some 7), .post () (some 7), .push () (some 8)] := by
  intro h
  have hr : Run (Step 1) Threadpool.init [.push () (some 7), .post () (some 7)]
      (⟨[some 7], 1, fun _ => .outside, fun _ => .waiting⟩ : Threadpool Unit Unit ℕ) :=
    .cons (.push rfl rfl) (.single (.post rfl))
  have htwo := (h _ _ [] _ _ rfl hr (.push rfl rfl)).length_le
  exact absurd htwo (by decide)

end SocketTest.ThreadPool
