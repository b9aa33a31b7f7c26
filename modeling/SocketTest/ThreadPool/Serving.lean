import SocketTest.ThreadPool.Slots

/-!
# What holds of every connection

The order of `Slots` is kept as long as `init` assigns `m_sockfd` of no slot that a worker is still in;
it then gives the two results: `slots_owned`, about descriptors that are used again, and
`none_stranded`, which needs room in the queue, too. A worker that has closed its connection and has not
reset `m_sockfd` breaks both.
-/

namespace SocketTest.ThreadPool

open SocketTest.Lib SocketTest.Http

/-- How far `m_user_count` is ahead of the connections while the main thread is there. -/
def MainPc.ahead : MainPc → ℤ
  | .accepted | .refusing | .assigning | .adding | .counting => -1
  | .closing .clear | .closing .count => 1
  | _ => 0

namespace Server

variable {W : Type*} [DecidableEq W]

/-- No worker is in the slot whose `m_sockfd` is assigned. -/
def Vacant (s : Server W) : Act W → Prop
  | .assign => ∀ fd w g pc, s.main = some (fd, .assigning) → s.worker w ≠ .busy fd g pc
  | _ => True

/-- There is room for the request that is appended. -/
def Roomy (maxRequests : ℕ) (s : Server W) : Act W → Prop
  | .append | .appendFails => s.workqueue.length ≤ maxRequests
  | _ => True

variable {lossy : Prop} {maxRequests : ℕ} {s s₀ s' : Server W} {a : Act W} {as : List (Act W)}

theorem Ordered.step (h : Ordered lossy s) (hs : Step maxRequests s a s') (hvacant : s.Vacant a)
    (hroom : lossy ∨ s.Roomy maxRequests a) : Ordered lossy s' := by
  cases hs with
  | poll hm hevs hnodup harmed => exact h.poll hm hevs hnodup harmed
  | accept hm hevs hfd => exact h.accept hm hevs hfd
  | acceptFails _ hevs => exact h.acceptFails hevs
  | checkCount hm =>
    refine h.checkCount hm ?_
    split_ifs
    · exact .inl rfl
    · exact .inr rfl
  | refuse hm => exact h.refuse hm
  | assign hm => exact h.assign hm fun w g pc => hvacant _ w g pc hm
  | add hm => exact h.add hm
  | count hm => exact h.count hm
  | reset hm => exact h.reset hm
  | @hangUp evs fd hm hevs =>
    have hsockfd : ({ s with evs := evs } : Server W).sockfd fd = some fd := h.sockfd_of_event hevs
    rw [mainCloses_eq hsockfd]
    exact h.event hm hevs (.inr rfl)
  | input hm hevs => exact h.event hm hevs (.inl trivial)
  | output hm hevs => exact h.event hm hevs (.inl trivial)
  | mainSets _ _ => exact h
  | read hm _ => exact h.works hm trivial trivial
  | readFails hm => exact h.mainCloses hm trivial
  | append hm hq => exact h.append hm hq
  | @appendFails i hm hq =>
    refine h.appendFails hm (hroom.resolve_right fun hle => ?_)
    rw [lockedPush, if_neg (Nat.not_lt.2 hle)] at hq
    cases hq
  | write hm _ => exact h.works hm trivial trivial
  | writeFails hm => exact h.mainCloses hm trivial
  | rearm hm => exact h.mainRearms hm (.inl rfl)
  | rearmReset hm => exact h.mainRearms hm (.inr (.inl rfl))
  | @rearmClose i ev hm =>
    have hsockfd : (s.modfd (s.sockfd i) ev).sockfd i = some i := by
      obtain ⟨epoll, hmodfd⟩ := s.modfd_with (s.sockfd i) ev
      rw [hmodfd]
      exact h.sockfd_of_working hm trivial
    rw [mainCloses_eq hsockfd]
    exact h.mainRearms hm (.inr (.inr rfl))
  | mainCloses hm => exact h.mainClosing hm
  | pop hw hq => exact h.pop hw hq
  | workerSets _ _ => exact h
  | @processRead w i g ret hw =>
    refine h.processes hw (.inl rfl) ?_
    split_ifs <;> trivial
  | processWrite hw => exact h.processes hw (.inr rfl) trivial
  | @processWriteFails w i g hw =>
    refine h.processes hw (.inr rfl) ?_
    have hsockfd : s.sockfd i = some i := congrArg View.sockfd (h.of_serving hw id).2.2
    rw [closing_eq hsockfd]
    exact rfl
  | workerCloses hw => exact h.workerClosing hw rfl
  | workerRearms hw => exact h.workerRearms hw

/-! ## The number of users -/

def mainAhead : Option (ℕ × MainPc) → ℤ
  | none => 0
  | some (_, pc) => pc.ahead

/-- A worker that has closed a connection and has not yet counted it. -/
def Worker.Leaves : Worker → Prop
  | .busy _ _ (.closing .clear) | .busy _ _ (.closing .count) => True
  | _ => False

instance : DecidablePred Worker.Leaves
  | .busy _ _ (.closing .clear) | .busy _ _ (.closing .count) => .isTrue trivial
  | .idle | .busy _ _ .reading | .busy _ _ .responding | .busy _ _ (.rearming _)
  | .busy _ _ (.closing (.del _)) | .busy _ _ (.closing (.close _)) => .isFalse id

variable [Fintype W]

/-- `m_user_count` against the connections that are open. -/
def Counted (s : Server W) : Prop :=
  s.userCount = s.opened.card + mainAhead s.main + standing Worker.Leaves s.worker

omit [DecidableEq W] in
theorem Counted.same (h : Counted s) (huser : s'.userCount = s.userCount)
    (hopened : s'.opened = s.opened) (hmain : mainAhead s'.main = mainAhead s.main)
    (hworker : standing Worker.Leaves s'.worker = standing Worker.Leaves s.worker) : Counted s' := by
  rw [Counted, huser, hopened, hmain, hworker]
  exact h

omit [DecidableEq W] in
/-- A step of the main thread that leaves the connections alone. -/
theorem Counted.mainMoves (h : Counted s) {m m' : Option (ℕ × MainPc)} (hm : s.main = m)
    (hmm' : mainAhead m' = mainAhead m) : Counted { s with main := m' } :=
  h.same rfl rfl (by rw [hm]; exact hmm') rfl

omit [DecidableEq W] in
/-- Before its first assignment `close_conn` does not count. -/
theorem Counted.mainCloses (h : Counted s) (i : ℕ) (hm : mainAhead s.main = 0) :
    Counted (s.mainCloses i) := by
  refine h.same rfl rfl ?_ rfl
  rw [hm, Server.mainCloses, Server.closing]
  cases s.sockfd i <;> rfl

/-- A worker moves outside `close_conn`, or up to the first call there. -/
theorem Counted.workerMoves (h : Counted s) {w : W} {x x' : Worker} (hw : s.worker w = x)
    (hx : ¬ x.Leaves) (hx' : ¬ x'.Leaves) :
    Counted { s with worker := Function.update s.worker w x' } :=
  h.same rfl rfl rfl (standing_stay (by rw [hw]; exact iff_of_false hx hx'))

/-- A call or an assignment of `close_conn` in the main thread. -/
theorem Counted.mainClosing (h : Counted s) (hs : Ordered lossy s) {i : ℕ} {p : Closing}
    (hm : s.main = some (i, .closing p)) :
    Counted { s.closeStep i p with main := p.next.map fun p => (i, .closing p) } := by
  rw [Counted, hm] at h
  cases p with
  | del fd => exact h
  | close fd =>
    rcases (hs i).of_closing (view_main hm) with ⟨rfl, heq⟩ | ⟨hp, -⟩
    · have hopen : fd ∈ s.opened := of_decide_eq_true (congrArg View.opened heq)
      have hcard := Finset.card_erase_add_one hopen
      show s.userCount = ((s.opened.erase fd).card : ℤ) + 1 + standing Worker.Leaves s.worker
      rw [h, ← hcard]
      simp only [mainAhead, MainPc.ahead]
      push_cast
      ring
    · rcases hp with hp | hp <;> cases hp
  | clear => exact h
  | count =>
    show s.userCount - 1 = (s.opened.card : ℤ) + 0 + standing Worker.Leaves s.worker
    rw [h]
    simp only [mainAhead, MainPc.ahead]
    ring

/-- A call or an assignment of `close_conn` in a worker. -/
theorem Counted.workerClosing (h : Counted s) (hs : Ordered lossy s) {w : W} {i g : ℕ} {p : Closing}
    (hw : s.worker w = .busy i g (.closing p)) :
    Counted { s.closeStep i p with
      worker := Function.update s.worker w (.busy i g
        (match p.next with
          | some p => .closing p
          | none => .rearming .output)) } := by
  cases p with
  | del fd => exact (h.workerMoves hw id id : Counted _).same rfl rfl rfl rfl
  | close fd =>
    obtain ⟨rfl, -, heq⟩ := hs.of_serving hw id
    have hopen : fd ∈ s.opened := of_decide_eq_true (congrArg View.opened heq)
    have hcard := Finset.card_erase_add_one hopen
    have hstanding : standing Worker.Leaves
        (Function.update s.worker w (.busy fd g (.closing .clear))) =
          standing Worker.Leaves s.worker + 1 := standing_enter (by rw [hw]; exact id) trivial
    show s.userCount = ((s.opened.erase fd).card : ℤ) + mainAhead s.main + _
    rw [h, ← hcard]
    dsimp only [Closing.next]
    rw [hstanding]
    push_cast
    ring
  | clear =>
    exact h.same rfl rfl rfl (standing_stay (by rw [hw]; exact iff_of_true trivial trivial))
  | count =>
    have hstanding : standing Worker.Leaves
        (Function.update s.worker w (.busy i g (.rearming .output))) + 1 =
          standing Worker.Leaves s.worker := standing_leave (by rw [hw]; trivial) id
    show s.userCount - 1 = (s.opened.card : ℤ) + mainAhead s.main + _
    rw [h, ← hstanding]
    dsimp only [Closing.next]
    push_cast
    ring

theorem Counted.step (h : Counted s) (ho : Ordered lossy s) (hs : Step maxRequests s a s') :
    Counted s' := by
  cases hs with
  | poll _ _ _ _ | acceptFails _ _ | mainSets _ _ | workerSets _ _ => exact h
  | @accept evs fd hm _ hfd =>
    rw [Counted, hm] at h
    show s.userCount = ((insert fd s.opened).card : ℤ) + -1 + standing Worker.Leaves s.worker
    rw [h, Finset.card_insert_of_notMem hfd]
    simp only [mainAhead]
    push_cast
    ring
  | checkCount hm =>
    apply h.mainMoves hm
    split_ifs <;> rfl
  | @refuse fd hm =>
    have heq := ((ho fd).of_accepting (view_main hm) (.inr (.inl rfl))).1
    have hopen : fd ∈ s.opened := of_decide_eq_true (congrArg View.opened heq)
    rw [Counted, hm] at h
    have hcard := Finset.card_erase_add_one hopen
    show s.userCount = ((s.opened.erase fd).card : ℤ) + 0 + standing Worker.Leaves s.worker
    rw [h, ← hcard]
    simp only [mainAhead, MainPc.ahead]
    push_cast
    ring
  | assign hm => exact (h.mainMoves hm rfl).same rfl rfl rfl rfl
  | @add fd hm =>
    obtain ⟨epoll, hadd⟩ := s.addfd_with fd
    rw [hadd]
    exact (h.mainMoves hm rfl).same rfl rfl rfl rfl
  | count hm =>
    rw [Counted, hm] at h
    show s.userCount + 1 = (s.opened.card : ℤ) + 0 + standing Worker.Leaves s.worker
    rw [h]
    simp only [mainAhead, MainPc.ahead]
    ring
  | reset hm => exact h.mainMoves hm rfl
  | @hangUp evs fd hm _ =>
    exact Counted.mainCloses (s := { s with evs := evs }) h fd (by rw [hm]; rfl)
  | input hm _ | output hm _ => exact (h.mainMoves hm rfl).same rfl rfl rfl rfl
  | read hm _ | write hm _ => exact h.mainMoves hm rfl
  | readFails hm | writeFails hm => exact h.mainCloses _ (by rw [hm]; rfl)
  | append hm _ => exact (h.mainMoves hm rfl).same rfl rfl rfl rfl
  | appendFails hm _ => exact h.mainMoves hm rfl
  | @rearm i ev hm =>
    obtain ⟨epoll, hmodfd⟩ := s.modfd_with (s.sockfd i) ev
    rw [hmodfd]
    exact (h.mainMoves hm rfl).same rfl rfl rfl rfl
  | @rearmReset i ev hm =>
    obtain ⟨epoll, hmodfd⟩ := s.modfd_with (s.sockfd i) ev
    rw [hmodfd]
    exact (h.mainMoves hm rfl).same rfl rfl rfl rfl
  | @rearmClose i ev hm =>
    obtain ⟨epoll, hmodfd⟩ := s.modfd_with (s.sockfd i) ev
    rw [hmodfd]
    exact Counted.mainCloses (s := { s with epoll := epoll }) h i (by rw [hm]; rfl)
  | mainCloses hm => exact h.mainClosing ho hm
  | pop hw _ => exact (h.workerMoves hw id id).same rfl rfl rfl rfl
  | processRead hw =>
    refine h.workerMoves hw id ?_
    split_ifs <;> exact id
  | processWrite hw => exact h.workerMoves hw id id
  | @processWriteFails w i g hw =>
    refine h.workerMoves hw id ?_
    rw [closing]
    cases s.sockfd i <;> exact id
  | workerCloses hw => exact h.workerClosing ho hw
  | @workerRearms w i g ev hw =>
    obtain ⟨epoll, hmodfd⟩ := s.modfd_with (s.sockfd i) ev
    rw [hmodfd]
    exact (h.workerMoves hw id id).same rfl rfl rfl rfl

/-! ## Runs -/

omit [Fintype W] in
theorem Started.ordered (h : s.Started) : Ordered lossy s := by
  intro i
  have hopened : decide (i ∈ s.opened) = false :=
    decide_eq_false (by rw [h.opened]; exact Finset.notMem_empty i)
  have hworker : (fun w => (s.worker w).at_ i) = fun _ => none := by
    funext w
    rw [h.worker w]
    rfl
  simp only [view, hopened, h.epoll, h.evs, h.workqueue, h.main, hworker]
  exact .free (fun _ _ _ hw => by cases hw) (.inl rfl)

omit [DecidableEq W] in
theorem Started.counted (h : s.Started) : s.Counted := by
  have hstanding : standing Worker.Leaves s.worker = 0 :=
    standing_eq_zero.2 fun w => by rw [h.worker w]; exact id
  rw [Counted, h.userCount, h.opened, h.main, hstanding]
  rfl

/-- The connections whose `m_sockfd` `init` has assigned. -/
def established (s : Server W) : Finset ℕ :=
  s.opened.filter fun fd => mainAt fd s.main ∉ [some .accepted, some .refusing, some .assigning]

/-- Nobody is in `init` of a new connection or in `close_conn`. -/
structure Settled (s : Server W) : Prop where
  main : ∀ i pc, s.main = some (i, pc) → pc ∉ [.assigning, .adding, .counting, .resetting] ∧
    ∀ p, pc ≠ .closing p
  worker : ∀ w i g p, s.worker w ≠ .busy i g (.closing p)

/-- A slot belongs to the connection that it was given to last. -/
structure Owned (s : Server W) : Prop where
  sockfd : ∀ fd ∈ s.established, s.sockfd fd = some fd
  /-- no worker is left from an earlier connection -/
  worker : ∀ fd ∈ s.established, ∀ w g pc, s.worker w = .busy fd g pc → g = s.gen fd
  userCount : s.Settled → s.userCount = s.established.card

omit [Fintype W] in
theorem Situation.of_established {i : ℕ} {v : View W} (h : Situation lossy i v)
    (ho : v.opened = true) (hm : v.main ∉ [some .accepted, some .refusing, some .assigning]) :
    v.sockfd = some i ∧ ∀ w g pc, v.worker w = some (g, pc) → g = v.gen := by
  cases h with
  | free => cases ho
  | accepting _ hmain => rcases hmain with rfl | rfl | rfl <;> simp at hm
  | processed _ _ => exact ⟨rfl, fun w g pc hw => (only_some hw).2.1⟩
  | adding | armed | ready | queued | working | closing | lost => exact ⟨rfl, nofun⟩

omit [Fintype W] in
theorem Ordered.owned (h : Ordered lossy s) {fd : ℕ} (hfd : fd ∈ s.established) :
    s.sockfd fd = some fd ∧ ∀ w g pc, s.worker w = .busy fd g pc → g = s.gen fd := by
  obtain ⟨hopened, hmain⟩ := Finset.mem_filter.1 hfd
  obtain ⟨hsockfd, hworker⟩ := (h fd).of_established (decide_eq_true hopened) hmain
  exact ⟨hsockfd, fun w g pc hw => hworker w g pc (view_worker hw)⟩

omit [DecidableEq W] [Fintype W] in
theorem established_of_accepting {i : ℕ} {pc : MainPc} (hm : s.main = some (i, pc))
    (hpc : pc = .accepted ∨ pc = .refusing) : s.established = s.opened.erase i := by
  ext fd
  rw [established, Finset.mem_filter, Finset.mem_erase, and_comm, hm]
  refine and_congr_left fun _ => ⟨?_, ?_⟩
  · rintro hnot rfl
    rw [mainAt_self] at hnot
    rcases hpc with rfl | rfl <;> simp at hnot
  · intro hne
    rw [mainAt_of_ne hne]
    simp

omit [DecidableEq W] [Fintype W] in
theorem established_of_not_accepting
    (hm : ∀ i pc, s.main = some (i, pc) → pc ∉ [.accepted, .refusing, .assigning]) :
    s.established = s.opened := by
  refine Finset.filter_true_of_mem fun fd _ => ?_
  cases hmain : s.main with
  | none => simp [mainAt]
  | some m =>
    obtain ⟨j, pc⟩ := m
    have hpc := hm j pc hmain
    by_cases hj : fd = j
    · rw [hj, mainAt_self]
      simpa using hpc
    · rw [mainAt_of_ne hj]
      simp

omit [Fintype W] in
/-- The connections that are not established are those the main thread has just accepted. -/
theorem Ordered.established_card (h : Ordered lossy s)
    (hm : ∀ i pc, s.main = some (i, pc) → pc ∉ [.assigning, .adding, .counting, .resetting] ∧
      ∀ p, pc ≠ .closing p) : (s.established.card : ℤ) = s.opened.card + mainAhead s.main := by
  cases hmain : s.main with
  | none =>
    rw [established_of_not_accepting (by rw [hmain]; nofun)]
    exact (add_zero _).symm
  | some m =>
    obtain ⟨i, pc⟩ := m
    obtain ⟨hinit, hclosing⟩ := hm i pc hmain
    by_cases hpc : pc = .accepted ∨ pc = .refusing
    · have heq := ((h i).of_accepting (view_main hmain) (by tauto)).1
      have hopen : i ∈ s.opened := of_decide_eq_true (congrArg View.opened heq)
      have hahead : mainAhead (some (i, pc)) = -1 := by rcases hpc with rfl | rfl <;> rfl
      rw [established_of_accepting hmain hpc, hahead, ← Finset.card_erase_add_one hopen]
      push_cast
      ring
    · have hahead : mainAhead (some (i, pc)) = 0 := by
        cases pc with
        | accepted | refusing => simp at hpc
        | assigning | adding | counting => simp at hinit
        | closing p => exact absurd rfl (hclosing p)
        | resetting | reading | appending | writing | rearming => rfl
      rw [hahead, add_zero, established_of_not_accepting]
      rintro i' pc' hm'
      cases hmain.symm.trans hm'
      simp only [List.mem_cons, List.not_mem_nil, or_false, not_or] at hinit ⊢
      exact ⟨fun h => hpc (.inl h), fun h => hpc (.inr h), hinit.1⟩

theorem Counted.settled (h : s.Counted) (ho : Ordered lossy s) (hsettled : s.Settled) :
    s.userCount = s.established.card := by
  have hstanding : standing Worker.Leaves s.worker = 0 := by
    refine standing_eq_zero.2 fun w hw => ?_
    cases hworker : s.worker w with
    | idle =>
      rw [hworker] at hw
      exact hw
    | busy i g pc =>
      cases pc with
      | closing p => exact hsettled.worker w i g p hworker
      | reading | responding | rearming _ =>
        rw [hworker] at hw
        exact hw
  rw [h, hstanding, ho.established_card hsettled.main, Nat.cast_zero, add_zero]

/-! ## A descriptor that comes back -/

/-- The server of `main`, with the defaults of `threadpool`: eight threads. -/
def start : Server (Fin 8) where
  sockfd := fun _ => none
  conn := fun _ => .unused
  userCount := 0
  opened := ∅
  epoll := fun _ => none
  workqueue := []
  worker := fun _ => .idle
  evs := []
  main := none
  gen := fun _ => 0

theorem start_started : start.Started :=
  ⟨rfl, rfl, fun _ => rfl, rfl, fun _ => rfl, rfl, rfl⟩

theorem listen_ready {epoll : ℕ → Option (Option Interest)} (fd : ℕ) (branch : Branch)
    (h : Ready.conn fd branch ∈ [Ready.listen]) : ∃ k, epoll fd = some (some k) ∧ k.Allows branch := by
  cases List.mem_singleton.1 h

theorem input_ready {epoll : ℕ → Option (Option Interest)} {i : ℕ} (hi : epoll i = some (some .input))
    (fd : ℕ) (branch : Branch) (h : Ready.conn fd branch ∈ [Ready.conn i .input]) :
    ∃ k, epoll fd = some (some k) ∧ k.Allows branch := by
  cases List.mem_singleton.1 h
  exact ⟨.input, hi, rfl⟩

/-- `accept` returns `fd`, and `init` puts it into its slot. -/
def takes (fd : ℕ) : List (Act W) := [.poll, .accept fd, .checkCount, .assign, .add, .count, .reset]

/-- A request is read and queued; worker `w` cannot answer it and closes the descriptor. -/
def drops (w : W) : List (Act W) :=
  [.poll, .event, .read true, .append, .pop w, .processRead w .fileRequest, .processWrite w false,
    .workerCloses w, .workerCloses w]

omit [DecidableEq W] [Fintype W] in
theorem vacant_of_idle (h : ∀ w, s.worker w = .idle) : s.Vacant .assign :=
  fun _ w _ _ _ hw => Worker.noConfusion ((h w).symm.trans hw)

/-- The worker leaves `process`, and descriptor 5 is accepted again. -/
theorem taken : ∃ s : Server (Fin 8),
    Run (fun s a s' => Step 10000 s a s' ∧ s.Vacant a ∧ s.Roomy 10000 a) start
      (takes 5 ++ drops 0 ++ [.workerCloses 0, .workerCloses 0, .workerRearms 0] ++ takes 5) s ∧
      s.main = none ∧ 5 ∈ s.opened ∧ 5 ∈ s.established ∧ s.gen 5 = 2 :=
  ⟨_,
    -- the first connection
    .cons ⟨@Step.poll _ _ _ _ [.listen] rfl rfl List.nodup_nil listen_ready, trivial, trivial⟩
    (.cons ⟨.accept rfl rfl (by decide), trivial, trivial⟩
    (.cons ⟨.checkCount rfl, trivial, trivial⟩
    (.cons ⟨.assign rfl, vacant_of_idle fun _ => rfl, trivial⟩ (.cons ⟨.add rfl, trivial, trivial⟩
    (.cons ⟨.count rfl, trivial, trivial⟩ (.cons ⟨.reset rfl, trivial, trivial⟩
    -- its request
    (.cons ⟨@Step.poll _ _ _ _ [.conn 5 .input] rfl rfl (List.nodup_singleton 5) (input_ready rfl),
      trivial, trivial⟩
    (.cons ⟨.input rfl rfl, trivial, trivial⟩ (.cons ⟨.read rfl nofun, trivial, trivial⟩
    (.cons ⟨.append rfl rfl, trivial, Nat.zero_le _⟩ (.cons ⟨.pop rfl rfl, trivial, trivial⟩
    (.cons ⟨.processRead rfl, trivial, trivial⟩ (.cons ⟨.processWriteFails rfl, trivial, trivial⟩
    (.cons ⟨.workerCloses rfl, trivial, trivial⟩ (.cons ⟨.workerCloses rfl, trivial, trivial⟩
    (.cons ⟨.workerCloses rfl, trivial, trivial⟩ (.cons ⟨.workerCloses rfl, trivial, trivial⟩
    (.cons ⟨.workerRearms rfl, trivial, trivial⟩
    -- the second connection
    (.cons ⟨@Step.poll _ _ _ _ [.listen] rfl rfl List.nodup_nil listen_ready, trivial, trivial⟩
    (.cons ⟨.accept rfl rfl (by decide), trivial, trivial⟩
    (.cons ⟨.checkCount rfl, trivial, trivial⟩
    (.cons ⟨.assign rfl, vacant_of_idle (by decide), trivial⟩ (.cons ⟨.add rfl, trivial, trivial⟩
    (.cons ⟨.count rfl, trivial, trivial⟩ (.cons ⟨.reset rfl, trivial, trivial⟩
    (.nil _)))))))))))))))))))))))))),
    rfl, by decide, by decide, rfl⟩

/-- Descriptor 5 is accepted again before the worker resets `m_sockfd`; then the worker ends `process`,
and the next request is read on -1. -/
theorem reused : ∃ t u : Server (Fin 8),
    Run (Step 10000) start (takes 5 ++ drops 0 ++ takes 5 ++ [.workerCloses 0]) t ∧
      (5 ∈ t.established ∧ t.sockfd 5 = none) ∧
      Run (Step 10000) t [.workerCloses 0, .workerRearms 0, .poll, .event, .read false] u ∧
      u.main = none ∧ 5 ∈ u.opened ∧ u.evs = [] ∧ u.epoll 5 = some none ∧ u.workqueue = [] ∧
      ∀ w, u.worker w = .idle :=
  ⟨_, _,
    -- the first connection
    .cons (@Step.poll _ _ _ _ [.listen] rfl rfl List.nodup_nil listen_ready)
    (.cons (.accept rfl rfl (by decide)) (.cons (.checkCount rfl) (.cons (.assign rfl)
    (.cons (.add rfl) (.cons (.count rfl) (.cons (.reset rfl)
    -- its request
    (.cons (@Step.poll _ _ _ _ [.conn 5 .input] rfl rfl (List.nodup_singleton 5) (input_ready rfl))
    (.cons (.input rfl rfl) (.cons (.read rfl nofun) (.cons (.append rfl rfl)
    (.cons (.pop rfl rfl) (.cons (.processRead rfl) (.cons (.processWriteFails rfl)
    (.cons (.workerCloses rfl) (.cons (.workerCloses rfl)
    -- the second connection
    (.cons (@Step.poll _ _ _ _ [.listen] rfl rfl List.nodup_nil listen_ready)
    (.cons (.accept rfl rfl (by decide)) (.cons (.checkCount rfl) (.cons (.assign rfl)
    (.cons (.add rfl) (.cons (.count rfl) (.cons (.reset rfl)
    (.cons (.workerCloses rfl) (.nil _)))))))))))))))))))))))),
    ⟨by decide, rfl⟩,
    .cons (.workerCloses rfl) (.cons (.workerRearms rfl)
    (.cons (@Step.poll _ _ _ _ [.conn 5 .input] rfl rfl (List.nodup_singleton 5) (input_ready rfl))
    (.cons (.input rfl rfl) (.cons (.readFails rfl) (.nil _))))),
    rfl, by decide, rfl, rfl, rfl, by decide⟩

/-! ## Results -/

/-- **Slots.** A connection has its slot to itself until it is closed, and `m_user_count` is the number
of connections, as long as `init` assigns `m_sockfd` only when no worker is in the slot. -/
theorem slots_owned (h0 : s₀.Started)
    (hr : Run (fun s a s' => Step maxRequests s a s' ∧ s.Vacant a) s₀ as s) : s.Owned := by
  have hall : Ordered True s ∧ s.Counted := by
    refine hr.invariant (I := fun s => Ordered True s ∧ s.Counted) ?_ ⟨h0.ordered, h0.counted⟩
    rintro s a s' ⟨ho, hc⟩ ⟨hs, hvacant⟩
    exact ⟨ho.step hs hvacant (.inl trivial), hc.step ho hs⟩
  exact ⟨fun fd hfd => (hall.1.owned hfd).1, fun fd hfd => (hall.1.owned hfd).2,
    hall.2.settled hall.1⟩

theorem slots_owned_taken : ∃ s : Server (Fin 8), s.Owned ∧ 5 ∈ s.established ∧ s.gen 5 = 2 := by
  obtain ⟨s, hr, -, -, hestablished, hgen⟩ := taken
  exact ⟨s, slots_owned start_started (hr.mono fun _ _ _ h => ⟨h.1, h.2.1⟩), hestablished, hgen⟩

/-- The worker resets `m_sockfd` of the new connection. -/
theorem slot_taken_away : ¬ ∀ (s₀ s : Server (Fin 8)) (as : List (Act (Fin 8))), s₀.Started →
    Run (Step 10000) s₀ as s → s.Owned := by
  intro hall
  obtain ⟨t, -, hr, ⟨hestablished, hsockfd⟩, -⟩ := reused
  have howned := (hall start t _ start_started hr).sockfd 5 hestablished
  rw [hsockfd] at howned
  cases howned

/-- Somebody will come to the connection. -/
def Attended (s : Server W) (fd : ℕ) : Prop :=
  (∃ k, s.epoll fd = some (some k)) ∨ some fd ∈ s.workqueue ∨
    ∃ w pc, s.worker w = .busy fd (s.gen fd) pc

omit [Fintype W] in
theorem Situation.of_opened {i : ℕ} {v : View W} (h : Situation lossy i v) (ho : v.opened = true)
    (hm : v.main = none) : (∃ k, v.epoll = some (some k)) ∨ v.queued ≠ 0 ∨
      (∃ w pc, v.worker w = some (v.gen, pc)) ∨ v.ready ≠ 0 ∨ lossy := by
  cases h with
  | free => cases ho
  | armed _ => exact .inl ⟨_, rfl⟩
  | queued => exact .inr (.inl one_ne_zero)
  | processed _ _ => exact .inr (.inr (.inl ⟨_, _, only_self _ _ _⟩))
  | ready => exact .inr (.inr (.inr (.inl one_ne_zero)))
  | lost hlossy => exact .inr (.inr (.inr (.inr hlossy)))
  | accepting | adding | working | closing => cases hm

omit [Fintype W] in
/-- **No connection is stranded.** Between two events a connection is armed, queued, or with a worker,
or its own event is still to come; so it is as long as `init` assigns `m_sockfd` only when no worker
is in the slot and `append` finds room. -/
theorem none_stranded (h0 : s₀.Started)
    (hr : Run (fun s a s' => Step maxRequests s a s' ∧ s.Vacant a ∧ s.Roomy maxRequests a) s₀ as s)
    (hm : s.main = none) {fd : ℕ} (hfd : fd ∈ s.opened) :
    s.Attended fd ∨ ∃ branch, .conn fd branch ∈ s.evs := by
  have ho : Ordered False s := by
    refine hr.invariant ?_ h0.ordered
    rintro s a s' ho ⟨hs, hvacant, hroom⟩
    exact ho.step hs hvacant (.inr hroom)
  rcases (ho fd).of_opened (decide_eq_true hfd) (view_main_none hm fd) with
    harmed | hqueued | ⟨w, pc, hw⟩ | hready | hlost
  · exact .inl (.inl harmed)
  · exact .inl (.inr (.inl (List.count_pos_iff.1 (Nat.pos_of_ne_zero hqueued))))
  · exact .inl (.inr (.inr ⟨w, pc, at_some hw⟩))
  · obtain ⟨e, he, hefd⟩ := List.mem_filterMap.1 (List.count_pos_iff.1 (Nat.pos_of_ne_zero hready))
    cases e with
    | listen => cases hefd
    | conn fd' branch =>
      cases hefd
      exact .inr ⟨branch, he⟩
  · exact hlost.elim

theorem none_stranded_taken : ∃ s : Server (Fin 8), 5 ∈ s.opened ∧ s.gen 5 = 2 ∧
    (s.Attended 5 ∨ ∃ branch, .conn 5 branch ∈ s.evs) := by
  obtain ⟨s, hr, hm, hopened, -, hgen⟩ := taken
  exact ⟨s, hopened, hgen, none_stranded start_started hr hm hopened⟩

/-- The new connection is open, and nobody comes to it any more. -/
theorem connection_stranded : ¬ ∀ (s₀ s : Server (Fin 8)) (as : List (Act (Fin 8))), s₀.Started →
    Run (Step 10000) s₀ as s → s.main = none → ∀ fd ∈ s.opened,
      s.Attended fd ∨ ∃ branch, .conn fd branch ∈ s.evs := by
  intro hall
  obtain ⟨t, u, hr, -, hr', hm, hopened, hevs, hepoll, hqueue, hworker⟩ := reused
  rcases hall start u _ start_started (hr.append hr') hm 5 hopened with
    (⟨k, harmed⟩ | hqueued | ⟨w, pc, hw⟩) | ⟨branch, hready⟩
  · rw [hepoll] at harmed
    cases harmed
  · rw [hqueue] at hqueued
    cases hqueued
  · rw [hworker w] at hw
    cases hw
  · rw [hevs] at hready
    cases hready

end Server

end SocketTest.ThreadPool
