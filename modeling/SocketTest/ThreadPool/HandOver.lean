import SocketTest.ThreadPool.HttpServer

/-!
# From thread to thread

In the steps outside the functions of a slot the slot goes from `epoll` to the main thread, to the queue,
to a worker and back. To the slot alone that is nothing, but for `accept`, the close behind an event, the
end of what `EPOLLOUT` finds without a response, and the end of a `process` that has got no request.
-/

namespace SocketTest.ThreadPool.HttpServer

open SocketTest.Lib SocketTest.Http

open Server

variable {W : Type*} {maxRequests i : ℕ} {s s' : HttpServer W} {x : Slot}

variable [DecidableEq W] {t : Server W}

/-- The events that `epoll_wait` returns tell what the slots are armed for. -/
theorem Shows.poll (h : s.Shows i x) (ho : Ordered True s.server) {evs : List Ready}
    (hm : s.server.main = none) (harmed : ∀ fd branch, .conn fd branch ∈ evs →
      ∃ k, s.server.epoll fd = some (some k) ∧ k.Allows branch) :
    Shows { s with server := { s.server with
      evs := evs
      epoll := fun fd => if fd ∈ evs.filterMap Ready.fd then some none else s.server.epoll fd } }
      i x := by
  have hmain : mainAt i s.server.main = none := view_main_none hm i
  by_cases hi : i ∈ evs.filterMap Ready.fd
  · have hepoll {k : Interest} (hk : (if i ∈ evs.filterMap Ready.fd then some none
        else s.server.epoll i) = some (some k)) : False := by
      rw [if_pos hi] at hk
      cases hk
    obtain ⟨e, he, hfd⟩ := List.mem_filterMap.1 hi
    cases e with
    | listen => cases hfd
    | conn fd branch =>
      cases hfd
      obtain ⟨k, hk, -⟩ := harmed i branch he
      have heq := (ho i).of_armed hk hmain
      have hopened : i ∈ s.server.opened := of_decide_eq_true (congrArg View.opened heq)
      have hworker (w : W) : (s.server.worker w).at_ i = none := congrFun (congrArg View.worker heq) w
      refine ⟨fun _ => h.same_of_none (congrArg View.worker heq), fun w g hw => ?_,
        fun hclosed => absurd hopened hclosed, fun pc hm' => ?_, fun k hk' _ => (hepoll hk').elim,
        fun branch' hb => ?_, fun hq => absurd (congrArg View.queued heq) (view_queued hq),
        fun w g pc hw => ?_⟩
      · cases (hworker w).symm.trans hw
      · cases hmain.symm.trans hm'
      · obtain ⟨k', hk', hallows⟩ := harmed i branch' hb
        have hstage := h.armed k' hk' hmain
        cases branch' with
        | hangUp =>
          cases k' with
          | input => exact .inl hstage
          | output => exact .inr hstage
        | input | output =>
          cases hallows
          exact hstage
      · cases (hworker w).symm.trans hw
  · refine h.elsewhere { epoll := if_neg hi, evs := fun branch hb => absurd ?_ hi }
    exact List.mem_filterMap.2 ⟨_, hb, rfl⟩

omit [DecidableEq W] in
theorem main_of_ne {j : ℕ} {pc : MainPc} (hm : s.server.main = some (j, pc)) :
    ∀ i ≠ j, mainAt i s.server.main = none := by
  rw [hm]
  exact some_elsewhere j pc

omit [DecidableEq W] in
/-- The main thread comes to an event of another slot. -/
theorem same_of_event {evs : List Ready} {fd : ℕ} {branch : Branch}
    (hevs : s.server.evs = .conn fd branch :: evs) (hi : i ≠ fd) (hm : s.server.main = none)
    (pc : MainPc) :
    Same s { s with server := { s.server with evs := evs, main := some (fd, pc) } } i where
  evs b hb := hevs ▸ List.mem_cons_of_mem _ hb
  main := main_elsewhere (by rw [hm]; exact none_elsewhere fd) (some_elsewhere fd pc) i hi

theorem Shows.same_of_event (h : s.Shows i x) (ho : Ordered True s.server) {evs : List Ready}
    {branch : Branch} (hevs : s.server.evs = .conn i branch :: evs) :
    branch.Shows x.stage ∧ x.conn = s.server.conn i ∧ x.address = s.address i := by
  have hmem : .conn i branch ∈ s.server.evs := hevs ▸ List.mem_cons_self
  have heq := (ho i).of_ready (view_ready hmem)
  exact ⟨h.ready branch hmem, h.same_of_none (congrArg View.worker heq)⟩

/-- Where a worker has closed the connection, the slot can only be with the main thread. -/
theorem stale_of_worker (ho : Ordered True s.server) {w : W} {g : ℕ} {pc : ProcessPc}
    (hw : s.server.worker w = .busy i g pc) (hpc : pc.Stale (s.server.sockfd i)) :
    (s.server.view i).ready = 0 ∧ (s.server.view i).queued = 0 ∧ s.server.epoll i = none ∧
      Stale (s.server.sockfd i) (s.server.view i).worker := by
  have hview : (s.server.view i).worker w = some (g, pc) := view_worker hw
  have hsockfd : (s.server.view i).sockfd = s.server.sockfd i := rfl
  have hepoll : (s.server.view i).epoll = s.server.epoll i := rfl
  rw [← hsockfd] at hpc ⊢
  rw [← hepoll]
  have hi := ho i
  generalize s.server.view i = v at hview hpc hi
  cases hi with
  | free hstale _ => exact ⟨rfl, rfl, rfl, hstale⟩
  | accepting hstale _ => exact ⟨rfl, rfl, rfl, hstale⟩
  | @processed epoll gen w' pc' hserves _ =>
    obtain ⟨-, -, rfl⟩ := only_some hview
    exact absurd hserves hpc.not_serves
  | adding | armed | ready | queued | working | closing | lost => cases hview

/-- A step of such a worker changes nothing for the slot alone. -/
theorem Shows.of_stale (h : s.Shows i x) (ho : Ordered True s.server) {w : W} {g : ℕ} {pc : ProcessPc}
    (hw : s.server.worker w = .busy i g pc) (hpc : pc.Stale (s.server.sockfd i))
    {sockfd : ℕ → Option ℕ} {worker : W → Server.Worker} {userCount : ℤ}
    (hstale : Stale (sockfd i) fun w => (worker w).at_ i) :
    Shows { s with server := { s.server with
      sockfd := sockfd, worker := worker, userCount := userCount } } i x := by
  obtain ⟨hready, hqueued, hepoll, hstale₀⟩ := stale_of_worker ho hw hpc
  refine .of_unserved hready hqueued hstale (h.same_of_stale hstale₀) h.closed h.main
    fun k hk _ => ?_
  cases hepoll.symm.trans hk

/-- A call or an assignment of `close_conn` in a worker. -/
theorem Shows.workerCloses (h : s.Shows i x) (ho : Ordered True s.server) {w : W} {j g : ℕ}
    {p : Closing} {pc' : ProcessPc} (hw : s.server.worker w = .busy j g (.closing p))
    (hpc' : pc' = match p.next with
      | some p => .closing p
      | none => .rearming .output)
    (ho' : Ordered True { s.server.closeStep j p with
      worker := Function.update s.server.worker w (.busy j g pc') }) :
    Shows { s with server := { s.server.closeStep j p with
      worker := Function.update s.server.worker w (.busy j g pc') } } i x := by
  have hworker := worker_elsewhere hw (busy_elsewhere j g _) (busy_elsewhere j g pc')
  have hself : Function.update s.server.worker w (.busy j g pc') w = .busy j g pc' :=
    Function.update_self _ _ _
  cases p with
  | del fd =>
    obtain ⟨hfd, -, heq⟩ := ho.of_serving hw id
    obtain rfl : fd = j := hfd
    obtain rfl : pc' = .closing (.close fd) := hpc'
    by_cases hi : i = fd
    · subst hi
      have hstage : x.stage = .closed := h.worker w g _ (view_worker hw) id
      exact .of_worker ho' hself id hstage
        (fun _ => h.same_of_worker ho hw id ProcessPc.noConfusion) ProcessPc.noConfusion
    · exact h.elsewhere { epoll := Function.update_of_ne hi _ _, worker := hworker i hi }
  | close fd =>
    obtain ⟨hfd, -, heq⟩ := ho.of_serving hw id
    obtain rfl : fd = j := hfd
    obtain rfl : pc' = .closing .clear := hpc'
    by_cases hi : i = fd
    · subst hi
      have hstage : x.stage = .closed := h.worker w g _ (view_worker hw) id
      have hmain : mainAt i s.server.main = none := congrArg View.main heq
      exact .of_closed ho' (Finset.notMem_erase i _) hmain hstage
        (h.same_of_worker ho hw id ProcessPc.noConfusion)
    · exact h.elsewhere
        { opened := fun hopened => Finset.mem_erase.2 ⟨hi, hopened⟩
          epoll := Function.update_of_ne hi _ _
          worker := hworker i hi }
  | clear =>
    obtain rfl : pc' = .closing .count := hpc'
    by_cases hi : i = j
    · subst hi
      have hstale := (stale_of_worker ho hw trivial).2.2.2
      refine h.of_stale ho hw trivial ?_
      have hsockfd : (s.server.closeStep i .clear).sockfd i = none := Function.update_self _ _ _
      rw [hsockfd, at_update, at_self]
      apply hstale.cleared.update
      rintro g' pc ⟨⟩
      rfl
    · exact h.elsewhere { sockfd := Function.update_of_ne hi _ _, worker := hworker i hi }
  | count =>
    obtain rfl : pc' = .rearming .output := hpc'
    by_cases hi : i = j
    · subst hi
      obtain ⟨hstale, -, -⟩ := ((ho i).of_worker (view_worker hw)).resolve_left fun hl => hl.1
      have hsockfd : s.server.sockfd i = none := hstale w g _ (view_worker hw)
      refine h.of_stale ho hw hsockfd ?_
      rw [at_update, at_self]
      apply hstale.update
      rintro g' pc ⟨⟩
      exact hsockfd
    · exact h.elsewhere { worker := hworker i hi }

/-- `process` ends with `modfd`. -/
theorem Shows.workerRearms (h : s.Shows i x) (ho : Ordered True s.server) {w : W} {j g : ℕ}
    {ev : Interest} (hw : s.server.worker w = .busy j g (.rearming ev))
    (ho' : Ordered True { s.server.modfd (s.server.sockfd j) ev with
      worker := Function.update s.server.worker w .idle }) :
    Shows { s with server := { s.server.modfd (s.server.sockfd j) ev with
      worker := Function.update s.server.worker w .idle } } i x := by
  have hworker := worker_elsewhere hw (busy_elsewhere j g _) (idle_elsewhere j)
  by_cases hstale : (ProcessPc.rearming ev).Stale (s.server.sockfd j)
  · -- the worker has closed the connection: its `modfd` is of -1
    have hsockfd : s.server.sockfd j = none := by
      cases ev with
      | input => cases hstale
      | output => exact hstale
    have hmodfd : s.server.modfd (s.server.sockfd j) ev = s.server := by rw [hsockfd]; rfl
    rw [hmodfd] at ho' ⊢
    by_cases hi : i = j
    · subst hi
      refine h.of_stale ho hw hstale ?_
      rw [at_update]
      exact (stale_of_worker ho hw hstale).2.2.2.update w nofun
    · exact h.elsewhere { worker := hworker i hi }
  · obtain ⟨-, hepoll, heq⟩ := ho.of_serving hw hstale
    have hepoll' : s.server.epoll j = some none := hepoll.resolve_right fun hr => by cases hr.2
    rw [modfd_eq (congrArg View.sockfd heq) (by rw [hepoll']; nofun)] at ho' ⊢
    by_cases hi : i = j
    · subst hi
      have hmain : mainAt i s.server.main = none := congrArg View.main heq
      exact .of_armed ho' (Function.update_self _ _ _) hmain (h.worker w g _ (view_worker hw) hstale)
        (h.same_of_worker ho hw hstale ProcessPc.noConfusion)
    · exact h.elsewhere { epoll := Function.update_of_ne hi _ _, worker := hworker i hi }

/-- The main thread goes on to another point in a slot. -/
theorem Shows.goes (h : s.Shows i x) (ho : Ordered True s.server) (ho' : Ordered True t) {j : ℕ}
    {pc pc' : MainPc} (hm : s.server.main = some (j, pc)) (hm' : t.main = some (j, pc'))
    (hconn : t.conn = s.server.conn) (hx : i = j → pc'.Shows s.sending (t.epoll i) x)
    (hsame : i ≠ j → Same s { s with server := t } i) : Shows { s with server := t } i x := by
  by_cases hi : i = j
  · subst hi
    refine .of_main ho' hm' (hx rfl) ?_
    show x.conn = t.conn i ∧ _
    rw [hconn]
    exact h.same_of_main ho hm
  · exact h.elsewhere (hsame hi)

/-- A call or an assignment of `close_conn` in the main thread. -/
theorem Shows.mainCloses (h : s.Shows i x) (ho : Ordered True s.server) {j : ℕ} {p : Closing}
    (hm : s.server.main = some (j, .closing p))
    (ho' : Ordered True { s.server.closeStep j p with main := p.next.map fun p => (j, .closing p) }) :
    Shows { s with server := { s.server.closeStep j p with
      main := p.next.map fun p => (j, .closing p) } } i x := by
  have hmain := main_of_ne hm
  have hstage (hi : i = j) : x.stage = .closed := h.main (.closing p) (hi ▸ view_main hm)
  have hclosing := (ho j).of_closing (view_main hm)
  cases p with
  | del fd =>
    obtain ⟨hfd, -⟩ := hclosing.resolve_right fun hr => by rcases hr.1 with h | h <;> cases h
    obtain rfl : fd = j := hfd
    exact h.goes ho ho' hm rfl rfl hstage fun hi =>
      { epoll := Function.update_of_ne hi _ _
        main := main_elsewhere hmain (some_elsewhere fd _) i hi }
  | close fd =>
    obtain ⟨hfd, -⟩ := hclosing.resolve_right fun hr => by rcases hr.1 with h | h <;> cases h
    obtain rfl : fd = j := hfd
    exact h.goes ho ho' hm rfl rfl hstage fun hi =>
      { opened := fun hopened => Finset.mem_erase.2 ⟨hi, hopened⟩
        epoll := Function.update_of_ne hi _ _
        main := main_elsewhere hmain (some_elsewhere fd _) i hi }
  | clear =>
    exact h.goes ho ho' hm rfl rfl hstage fun hi =>
      { sockfd := Function.update_of_ne hi _ _
        main := main_elsewhere hmain (some_elsewhere j _) i hi }
  | count =>
    by_cases hi : i = j
    · subst hi
      obtain ⟨-, -, heq⟩ := hclosing.resolve_left fun hl => hl.1
      have hopened : i ∉ s.server.opened := of_decide_eq_false (congrArg View.opened heq)
      exact .of_closed ho' hopened rfl (hstage rfl) (h.same_of_main ho hm)
    · exact h.elsewhere { main := main_elsewhere hmain (none_elsewhere j) i hi }

/-- `write` arms the descriptor. -/
theorem Shows.mainRearms (h : s.Shows i x) (ho : Ordered True s.server) {j : ℕ} {ev : Interest}
    {next : AfterWrite} {m : Option (ℕ × MainPc)} (hm : s.server.main = some (j, .rearming ev next))
    (hm' : m = none ∧ next = .done ∨ m = some (j, .resetting) ∧ next = .reset ∨
      m = some (j, .closing (.del j)) ∧ next = .close)
    (ho' : Ordered True { s.server.modfd (s.server.sockfd j) ev with main := m }) :
    Shows { s with server := { s.server.modfd (s.server.sockfd j) ev with main := m } } i x := by
  have hmain := main_of_ne hm
  have hx (hi : i = j) := h.main (.rearming ev next) (hi ▸ view_main hm)
  have heq := (ho j).of_working (view_main hm) trivial
  have hepoll : s.server.epoll j ≠ none := fun he => by
    cases he.symm.trans (congrArg View.epoll heq)
  rw [modfd_eq (congrArg View.sockfd heq) hepoll] at ho' ⊢
  rcases hm' with ⟨rfl, rfl⟩ | ⟨rfl, rfl⟩ | ⟨rfl, rfl⟩
  · by_cases hi : i = j
    · subst hi
      exact .of_armed ho' (Function.update_self _ _ _) rfl (hx rfl) (h.same_of_main ho hm)
    · exact h.elsewhere
        { epoll := Function.update_of_ne hi _ _
          main := main_elsewhere hmain (none_elsewhere j) i hi }
  · refine h.goes ho ho' hm rfl rfl (fun hi => ?_) fun hi =>
      { epoll := Function.update_of_ne hi _ _
        main := main_elsewhere hmain (some_elsewhere j _) i hi }
    subst hi
    obtain ⟨hstage, rfl⟩ := hx rfl
    exact ⟨.inr hstage, Function.update_self _ _ _⟩
  · exact h.goes ho ho' hm rfl rfl hx fun hi =>
      { epoll := Function.update_of_ne hi _ _
        main := main_elsewhere hmain (some_elsewhere j _) i hi }

theorem Shows.outside (h : s.Shows i x) (ho : Ordered True s.server) (ho' : Ordered True t)
    (hcalm : s.server.main = none → s.sending = none) {a : Server.Act W} (ha : a.Outside)
    (hs : Server.Step maxRequests s.server a t) : Follows x { s with server := t } i := by
  cases hs with
  | poll hm _ _ harmed => exact (h.poll ho hm harmed).follows
  | @accept evs fd hm hevs hfd =>
    refine Shows.follows ?_
    by_cases hi : i = fd
    · subst hi
      obtain ⟨hstale, -⟩ := (ho i).of_closed (decide_eq_false hfd) (view_main_none hm i)
      exact .of_main ho' rfl (h.closed hfd) (h.same_of_stale hstale)
    · exact h.elsewhere
        { opened := Finset.mem_insert_of_mem
          evs := fun b hb => hevs ▸ List.mem_cons_of_mem _ hb
          main := main_elsewhere (by rw [hm]; exact none_elsewhere fd) (some_elsewhere fd _) i hi }
  | acceptFails _ hevs =>
    exact (h.elsewhere { evs := fun b hb => hevs ▸ List.mem_cons_of_mem _ hb }).follows
  | @checkCount fd hm =>
    have hstage (hi : i = fd) : x.stage = .closed := h.main .accepted (hi ▸ view_main hm)
    refine (h.goes ho ho' hm rfl rfl (fun hi => ?_) fun hi => {
      main := main_elsewhere (main_of_ne hm) (some_elsewhere fd _) i hi
    }).follows
    split_ifs <;> exact hstage hi
  | @refuse fd hm =>
    refine Shows.follows ?_
    by_cases hi : i = fd
    · subst hi
      exact .of_closed ho' (Finset.notMem_erase i _) rfl (h.main .refusing (view_main hm))
        (h.same_of_main ho hm)
    · exact h.elsewhere
        { opened := fun hopened => Finset.mem_erase.2 ⟨hi, hopened⟩
          epoll := Function.update_of_ne hi _ _
          main := main_elsewhere (main_of_ne hm) (none_elsewhere fd) i hi }
  | @assign fd hm =>
    exact (h.goes ho ho' hm rfl rfl (fun hi => h.main .assigning (hi ▸ view_main hm)) fun hi => {
      sockfd := Function.update_of_ne hi _ _
      main := main_elsewhere (main_of_ne hm) (some_elsewhere fd _) i hi
    }).follows
  | @add fd hm =>
    have heq := (ho fd).of_adding (view_main hm)
    rw [addfd_eq (congrArg View.epoll heq)] at ho' ⊢
    refine (h.goes ho ho' hm rfl rfl (fun hi => ?_) fun hi => {
      epoll := Function.update_of_ne hi _ _
      main := main_elsewhere (main_of_ne hm) (some_elsewhere fd _) i hi
    }).follows
    subst hi
    exact ⟨h.main .adding (view_main hm), Function.update_self _ _ _⟩
  | @count fd hm =>
    refine (h.goes ho ho' hm rfl rfl (fun hi => ?_) fun hi => {
      main := main_elsewhere (main_of_ne hm) (some_elsewhere fd _) i hi
    }).follows
    subst hi
    obtain ⟨hstage, hepoll⟩ := h.main .counting (view_main hm)
    exact ⟨.inl hstage, hepoll⟩
  | @hangUp evs fd hm hevs =>
    have hsockfd : ({ s.server with evs := evs } : Server W).sockfd fd = some fd :=
      ho.sockfd_of_event hevs
    rw [mainCloses_eq hsockfd] at ho' ⊢
    by_cases hi : i = fd
    · subst hi
      obtain ⟨hstage, hsame⟩ := h.same_of_event ho hevs
      exact follows_step (.hangUp hstage) (.of_main ho' rfl rfl hsame)
    · exact (h.elsewhere (HttpServer.same_of_event hevs hi hm _)).follows
  | @input evs fd hm hevs =>
    refine Shows.follows ?_
    by_cases hi : i = fd
    · subst hi
      obtain ⟨hstage, hsame⟩ := h.same_of_event ho hevs
      exact .of_main ho' rfl hstage hsame
    · exact h.elsewhere (HttpServer.same_of_event hevs hi hm _)
  | @output evs fd hm hevs =>
    refine Shows.follows ?_
    by_cases hi : i = fd
    · subst hi
      obtain ⟨hstage, hsame⟩ := h.same_of_event ho hevs
      refine .of_main ho' rfl ?_ hsame
      show x.stage = writeStage s.sending
      rw [hcalm hm]
      exact hstage
    · exact h.elsewhere (HttpServer.same_of_event hevs hi hm _)
  | @append j workqueue hm hq =>
    refine Shows.follows ?_
    have hpush := lockedPush_some hq
    by_cases hi : i = j
    · subst hi
      refine .of_queued ho' ?_ (h.main .appending (view_main hm)) (h.same_of_main ho hm)
      rw [hpush]
      exact List.mem_append_right _ (List.mem_singleton_self _)
    · refine h.elsewhere
        { workqueue := fun hmem => ?_
          main := main_elsewhere (main_of_ne hm) (none_elsewhere j) i hi }
      rw [hpush] at hmem
      refine (List.mem_append.1 hmem).resolve_right fun hj => hi ?_
      exact Option.some.inj (List.mem_singleton.1 hj)
  | @appendFails j hm _ =>
    refine Shows.follows ?_
    by_cases hi : i = j
    · subst hi
      -- nobody has the connection any more
      have heq := (ho i).of_working (view_main hm) trivial
      have hopened : i ∈ s.server.opened := of_decide_eq_true (congrArg View.opened heq)
      have hepoll : s.server.epoll i = some none := congrArg View.epoll heq
      refine .of_unserved (congrArg View.ready heq) (congrArg View.queued heq) ?_
        (h.same_of_main ho hm) (fun hclosed => absurd hopened hclosed) (fun pc hm' => ?_)
        fun k hk _ => ?_
      · exact (Sees.unserved ((ho i).of_main (view_main hm))).2.2.1
      · cases hm'
      · cases hepoll.symm.trans hk
    · exact h.elsewhere
        { main := main_elsewhere (main_of_ne hm) (none_elsewhere j) i hi }
  | rearm hm => exact (h.mainRearms ho hm (.inl ⟨rfl, rfl⟩) ho').follows
  | rearmReset hm => exact (h.mainRearms ho hm (.inr (.inl ⟨rfl, rfl⟩)) ho').follows
  | @rearmClose j ev hm =>
    have hsockfd : (s.server.modfd (s.server.sockfd j) ev).sockfd j = some j := by
      obtain ⟨epoll, hmodfd⟩ := s.server.modfd_with (s.server.sockfd j) ev
      rw [hmodfd]
      exact ho.sockfd_of_working hm trivial
    rw [mainCloses_eq hsockfd] at ho' ⊢
    exact (h.mainRearms ho hm (.inr (.inr ⟨rfl, rfl⟩)) ho').follows
  | mainCloses hm => exact (h.mainCloses ho hm ho').follows
  | @pop w j workqueue hw hq =>
    refine Shows.follows ?_
    have hqueue : s.server.workqueue = some j :: workqueue := lockedPop_some hq
    by_cases hi : i = j
    · subst hi
      have hmem : some i ∈ s.server.workqueue := hqueue ▸ List.mem_cons_self
      have heq := (ho i).of_queued (view_queued hmem)
      exact .of_worker ho' (Function.update_self _ _ _) id (h.queued hmem)
        (fun _ => h.same_of_none (congrArg View.worker heq)) ProcessPc.noConfusion
    · exact h.elsewhere
        { workqueue := fun hmem => hqueue ▸ List.mem_cons_of_mem _ hmem
          worker := worker_elsewhere hw (idle_elsewhere j) (busy_elsewhere j _ _) i hi }
  | workerCloses hw => exact (h.workerCloses ho hw rfl ho').follows
  | workerRearms hw => exact (h.workerRearms ho hw ho').follows
  | reset | mainSets | read | readFails | write | writeFails => cases ha
  | workerSets | processRead | processWrite | processWriteFails => cases ha

end SocketTest.ThreadPool.HttpServer
