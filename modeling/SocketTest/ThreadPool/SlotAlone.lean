import SocketTest.ThreadPool.HandOver

/-!
# A slot does what it does alone

Whatever the order in which the threads take their steps, a slot does nothing but what it does alone
(`slot_alone`), as long as no worker is in a slot that is given to a new connection. What holds of the
runs of one slot so holds of each slot of the server.

1. In the functions of a slot.
2. In every step.
3. In a run.
-/

namespace SocketTest.ThreadPool.HttpServer

open SocketTest.Lib SocketTest.Http

open Server

variable {W : Type*} {maxRequests i : ℕ} {s s' : HttpServer W} {as : List (Server.Act W)} {x y : Slot}
variable [DecidableEq W] {t : Server W}

/-! ## 1. The functions of a slot -/

omit [DecidableEq W] in
/-- The main thread is in a function of slot `j`, and does not leave it for another slot. -/
theorem same_of_put {j : ℕ} {pc : MainPc} {m : Option (ℕ × MainPc)} (c : HttpConn)
    (hm : s.server.main = some (j, pc)) (hm' : ∀ i ≠ j, mainAt i m = none) (hi : i ≠ j) :
    Same s { s with server := { s.server.put j c with main := m } } i where
  conn := Function.update_of_ne hi _ _
  main := main_elsewhere (main_of_ne hm) hm' i hi

theorem Shows.reset (h : s.Shows i x) (ho : Ordered True s.server) {j : ℕ}
    (hm : s.server.main = some (j, .resetting)) {c : HttpConn} (hc : c = (s.server.conn j).init)
    (ho' : Ordered True { s.server.put j c with main := none }) :
    Follows x { s with server := { s.server.put j c with main := none } } i := by
  by_cases hi : i = j
  · subst hi
    obtain ⟨hstage, hepoll⟩ := h.main .resetting (view_main hm)
    obtain ⟨hconn, haddress⟩ := h.same_of_main ho hm
    have hself : Function.update s.server.conn i c i = c := Function.update_self _ _ _
    have hshows {y : Slot} (hst : y.stage = .armedIn) (hy : y.conn = x.conn.init)
        (haddr : y.address = x.address) :
        Shows { s with server := { s.server.put i c with main := none } } i y :=
      .of_armed ho' hepoll rfl hst ⟨by rw [hy, hconn, ← hc]; exact hself.symm, haddr.trans haddress⟩
    rcases hstage with hclosed | ⟨hout, hnothing⟩
    · exact follows_step (.accept hclosed) (hshows rfl rfl rfl)
    · have hstart : x.conn.writeStart = (.finished true, x.conn.init) := if_pos hnothing
      have hw := Slot.Step.write hout
      rw [hstart] at hw
      exact follows_step hw (hshows rfl rfl rfl)
  · exact (h.elsewhere (same_of_put c hm (none_elsewhere j) hi)).follows

/-- `read` returns. -/
theorem Shows.read (h : s.Shows i x) (ho : Ordered True s.server) {j : ℕ} {pc : MainPc} {ret : Bool}
    {c : HttpConn} (hm : s.server.main = some (j, .reading)) (hr : Receives (s.server.conn j) ret c)
    (hpc : pc = if ret then .appending else .closing (.del j))
    (ho' : Ordered True { s.server.put j c with main := some (j, pc) }) :
    Follows x { s with server := { s.server.put j c with main := some (j, pc) } } i := by
  by_cases hi : i = j
  · subst hi
    have hstage : x.stage = .armedIn := h.main .reading (view_main hm)
    obtain ⟨hconn, haddress⟩ := h.same_of_main ho hm
    have hself : Function.update s.server.conn i c i = c := Function.update_self _ _ _
    have hshows {y : Slot} (hst : y.stage = if ret then .queued else .closed) (hy : y.conn = c)
        (haddr : y.address = x.address) :
        Shows { s with server := { s.server.put i c with main := some (i, pc) } } i y := by
      refine .of_main ho' rfl ?_ ⟨hy.trans hself.symm, haddr.trans haddress⟩
      subst hpc
      cases ret <;> exact hst
    cases hr with
    | @ends chunk _ _ hread =>
      have hstep := @Slot.Step.read x chunk hstage
      rw [hconn, hread] at hstep
      exact follows_step hstep (hshows rfl rfl rfl)
    | @fails chunk hlen =>
      have hstep := @Slot.Step.readFails x chunk hstage (by rw [hconn]; exact hlen)
      rw [hconn] at hstep
      exact follows_step hstep (hshows rfl rfl rfl)
  · exact (h.elsewhere (same_of_put c hm (some_elsewhere j pc) hi)).follows

/-- `write` before its loop, when there is something to send. -/
theorem Shows.enter (h : s.Shows i x) (ho : Ordered True s.server) {j : ℕ} {a b : ℤ}
    (hm : s.server.main = some (j, .writing)) (hsending : s.sending = none)
    (hw : (s.server.conn j).writeStart = (.loop a b, s.server.conn j)) :
    Follows x { s with sending := some (a, b) } i := by
  by_cases hi : i = j
  · subst hi
    have hstage : x.stage = writeStage s.sending := h.main .writing (view_main hm)
    rw [hsending] at hstage
    obtain ⟨hconn, haddress⟩ := h.same_of_main ho hm
    have hstep := Slot.Step.write hstage
    rw [hconn, hw] at hstep
    exact follows_step hstep (.of_main ho hm rfl ⟨rfl, haddress⟩)
  · exact (h.elsewhere
      { sending := .inl (main_of_ne hm i hi) }).follows

theorem Shows.round (h : s.Shows i x) (ho : Ordered True s.server) {j : ℕ} {a b a' b' : ℤ}
    {r : Writev} (hm : s.server.main = some (j, .writing)) (hsending : s.sending = some (a, b))
    (hw : (s.server.conn j).writeRound a b r = (.loop a' b', s.server.conn j)) :
    Follows x { s with sending := some (a', b') } i := by
  by_cases hi : i = j
  · subst hi
    have hstage : x.stage = writeStage s.sending := h.main .writing (view_main hm)
    rw [hsending] at hstage
    obtain ⟨hconn, haddress⟩ := h.same_of_main ho hm
    have hstep := @Slot.Step.writev x a b r hstage
    rw [hconn, hw] at hstep
    exact follows_step hstep (.of_main ho hm rfl ⟨rfl, haddress⟩)
  · exact (h.elsewhere
      { sending := .inl (main_of_ne hm i hi) }).follows

omit [DecidableEq W] in
theorem unmap_address (x : Slot) : x.unmap.address = .null := by
  unfold Slot.unmap
  split
  · assumption
  · rfl

/-- Where the main thread goes from the loop of `write`. -/
def leadsTo (j : ℕ) : Phase → Option MainPc
  | .waiting => some (.rearming .output .done)
  | .loop _ _ => none
  | .finished result => some (.rearming .input (if result then .done else .close))
  | .failed => some (.closing (.del j))

theorem Shows.leave (h : s.Shows i x) (ho : Ordered True s.server) {j : ℕ} {a b : ℤ} {r : Writev}
    {phase : Phase} {c : HttpConn} {pc : MainPc} (hm : s.server.main = some (j, .writing))
    (hsending : s.sending = some (a, b)) (hw : (s.server.conn j).writeRound a b r = (phase, c))
    (hpc : leadsTo j phase = some pc)
    (ho' : Ordered True { s.server.put j c with main := some (j, pc) }) :
    Follows x { s with
      server := { s.server.put j c with main := some (j, pc) }
      address := if phase = .waiting then s.address else Function.update s.address j .null
      sending := none } i := by
  by_cases hi : i = j
  · subst hi
    have hstage : x.stage = writeStage s.sending := h.main .writing (view_main hm)
    rw [hsending] at hstage
    obtain ⟨hconn, haddress⟩ := h.same_of_main ho hm
    have hself : Function.update s.server.conn i c i = c := Function.update_self _ _ _
    have hnull : x.unmap.address = Function.update s.address i .null i := by
      rw [unmap_address, Function.update_self]
    have hstep := @Slot.Step.writev x a b r hstage
    rw [hconn, hw] at hstep
    cases phase with
    | loop => cases hpc
    | waiting =>
      cases hpc
      exact follows_step hstep (.of_main ho' rfl rfl ⟨hself.symm, haddress⟩)
    | finished result =>
      cases hpc
      refine follows_step hstep (.of_main ho' rfl ?_ ⟨hself.symm, hnull⟩)
      cases result <;> rfl
    | failed =>
      cases hpc
      exact follows_step hstep (.of_main ho' rfl rfl ⟨hself.symm, hnull⟩)
  · refine (h.elsewhere
      { conn := Function.update_of_ne hi _ _
        address := ?_
        sending := .inl (main_of_ne hm i hi)
        main := main_elsewhere (main_of_ne hm) (some_elsewhere j pc) i hi
        }).follows
    dsimp only
    split_ifs
    · rfl
    · exact Function.update_of_ne hi _ _

omit [DecidableEq W] in
/-- What a worker makes of the slot, with `process_write` behind it. -/
theorem process_of_parses {ret : HttpCode} {c : HttpConn} {p : Address} (hstage : x.stage = .queued)
    (h : Parses x.conn x.address ret c p) :
    ∃ act log, Slot.Step x act (Slot.respond { x with conn := c, address := p, log := log } ret) := by
  cases h with
  | @code files _ _ h hret => exact ⟨.process files x.address, x.log, .process hstage h hret⟩
  | @file files _ _ h hp hsize => exact ⟨.process files p, _, .processFile hstage h hp hsize⟩

theorem Shows.processRead (h : s.Shows i x) (ho : Ordered True s.server) {w : W} {j g : ℕ}
    {ret : HttpCode} {c : HttpConn} {p : Address} {pc : ProcessPc}
    (hw : s.server.worker w = .busy j g .reading)
    (hr : Parses (s.server.conn j) (s.address j) ret c p)
    (hpc : pc = if ret = .noRequest then .rearming .input else .responding)
    (ho' : Ordered True { s.server.put j c with
      worker := Function.update s.server.worker w (.busy j g pc) }) :
    Follows x { s with
      server := { s.server.put j c with worker := Function.update s.server.worker w (.busy j g pc) }
      address := Function.update s.address j p
      readRet := Function.update s.readRet w ret } i := by
  by_cases hi : i = j
  · subst hi
    have hstage : x.stage = .queued := h.worker w g _ (view_worker hw) id
    obtain ⟨hconn, haddress⟩ := h.same_of_worker ho hw id ProcessPc.noConfusion
    rw [← hconn, ← haddress] at hr
    have hself : Function.update s.server.worker w (.busy i g pc) w = .busy i g pc :=
      Function.update_self _ _ _
    have hc : Function.update s.server.conn i c i = c := Function.update_self _ _ _
    have hp : Function.update s.address i p i = p := Function.update_self _ _ _
    by_cases hret : ret = .noRequest
    · rw [if_pos hret] at hpc
      subst hpc
      obtain ⟨act, log, hstep⟩ := process_of_parses hstage hr
      rw [Slot.respond, if_pos hret] at hstep
      exact follows_step hstep
        (.of_worker ho' hself id rfl (fun _ => ⟨hc.symm, hp.symm⟩) ProcessPc.noConfusion)
    · rw [if_neg hret] at hpc
      subst hpc
      refine Shows.follows (.of_worker ho' hself id hstage (fun hne => absurd rfl hne) fun _ => ?_)
      have hread : Function.update s.readRet w ret w = ret := Function.update_self _ _ _
      show Parses x.conn x.address (Function.update s.readRet w ret w)
        (Function.update s.server.conn i c i) (Function.update s.address i p i) ∧
          Function.update s.readRet w ret w ≠ .noRequest
      rw [hread, hc, hp]
      exact ⟨hr, hret⟩
  · refine (h.elsewhere
      { conn := Function.update_of_ne hi _ _
        address := Function.update_of_ne hi _ _
        readRet := fun w' hw' => Function.update_of_ne (fun heq => hw' ?_) _ _
        worker := worker_elsewhere hw (busy_elsewhere j g _) (busy_elsewhere j g pc) i hi }).follows
    rw [heq, hw]
    exact at_of_ne hi g _

theorem Shows.processWrite (h : s.Shows i x) {w : W} {j g : ℕ} {ret : Bool} {c : HttpConn}
    {pc : ProcessPc} (hw : s.server.worker w = .busy j g .responding)
    (hr : (s.server.conn j).processWrite (s.readRet w) = (ret, c))
    (hpc : pc = if ret then .rearming .output else .closing (.del j))
    (hsockfd : s.server.sockfd j = some j)
    (ho' : Ordered True { s.server.put j c with
      worker := Function.update s.server.worker w (.busy j g pc) }) :
    Follows x { s with server := { s.server.put j c with
      worker := Function.update s.server.worker w (.busy j g pc) } } i := by
  by_cases hi : i = j
  · subst hi
    have hstage : x.stage = .queued := h.worker w g _ (view_worker hw) id
    obtain ⟨hparses, hret⟩ := h.ahead w g (view_worker hw)
    have hself : Function.update s.server.worker w (.busy i g pc) w = .busy i g pc :=
      Function.update_self _ _ _
    have hc : Function.update s.server.conn i c i = c := Function.update_self _ _ _
    obtain ⟨act, log, hstep⟩ := process_of_parses hstage hparses
    rw [Slot.respond, if_neg hret] at hstep
    dsimp only at hstep
    rw [hr] at hstep
    refine follows_step hstep ?_
    cases ret with
    | true =>
      rw [if_pos rfl] at hpc
      subst hpc
      refine .of_worker ho' hself ?_ rfl (fun _ => ⟨hc.symm, rfl⟩) ProcessPc.noConfusion
      exact fun hnone => by cases hsockfd.symm.trans hnone
    | false =>
      rw [if_neg Bool.noConfusion] at hpc
      subst hpc
      exact .of_worker ho' hself id rfl (fun _ => ⟨hc.symm, rfl⟩) ProcessPc.noConfusion
  · exact (h.elsewhere
      { conn := Function.update_of_ne hi _ _
        worker := worker_elsewhere hw (busy_elsewhere j g _) (busy_elsewhere j g pc) i hi }).follows

/-! ## 2. Every step -/

/-- The main thread is in the loop of `write` when it has something to send. -/
def Calm (s : HttpServer W) : Prop := ∀ p, s.sending = some p → ∃ i, s.server.main = some (i, .writing)

theorem writing_of_outside {u : Server W} {a : Server.Act W} (ha : a.Outside)
    (hs : Server.Step maxRequests u a t) (hm : u.main = some (i, .writing)) :
    t.main = some (i, .writing) := by
  have hmain {m : Option (ℕ × MainPc)} (hm' : u.main = m) (hne : m ≠ some (i, .writing)) :
      t.main = some (i, .writing) := absurd (hm'.symm.trans hm) hne
  cases hs with
  | poll hm' | accept hm' | acceptFails hm' | hangUp hm' | input hm' | output hm' => exact hmain hm' nofun
  | checkCount hm' | refuse hm' | assign hm' | add hm' | count hm' => exact hmain hm' nofun
  | append hm' | appendFails hm' | mainCloses hm' => exact hmain hm' nofun
  | rearm hm' | rearmReset hm' | rearmClose hm' => exact hmain hm' nofun
  | pop => exact hm
  | @workerCloses w j g p => cases p <;> exact hm
  | @workerRearms w j g ev =>
    obtain ⟨epoll, hmodfd⟩ := u.modfd_with (u.sockfd j) ev
    rw [hmodfd]
    exact hm
  | reset | mainSets | read | readFails | write | writeFails => cases ha
  | workerSets | processRead | processWrite | processWriteFails => cases ha

theorem Calm.step (h : s.Calm) (hs : Step maxRequests s as s') : s'.Calm := by
  intro p hp
  cases hs with
  | outside hs ha =>
    obtain ⟨i, hm⟩ := h p hp
    exact ⟨i, writing_of_outside ha hs hm⟩
  | reset hm | read hm =>
    obtain ⟨i, hm'⟩ := h p hp
    cases hm.symm.trans hm'
  | nothing _ hsending => cases hsending.symm.trans hp
  | enter hm | round hm => exact ⟨_, hm⟩
  | leave => cases hp
  | processRead _ _ hs =>
    obtain ⟨i, hm⟩ := h p hp
    cases hs with
    | processRead => exact ⟨i, hm⟩
  | processWrite _ _ hs =>
    obtain ⟨i, hm⟩ := h p hp
    cases hs with
    | processWrite | processWriteFails => exact ⟨i, hm⟩

theorem Shows.step (h : s.Shows i x) (ho : Ordered True s.server) (ho' : Ordered True s'.server)
    (hcalm : s.Calm) (hs : Step maxRequests s as s') : Follows x s' i := by
  cases hs with
  | outside hs ha =>
    refine h.outside ho ho' (fun hm => ?_) ha hs
    refine Option.eq_none_iff_forall_ne_some.2 fun p hp => ?_
    obtain ⟨j, hm'⟩ := hcalm p hp
    cases hm.symm.trans hm'
  | reset hm hs =>
    cases hs with
    | reset hm' =>
      cases hm.symm.trans hm'
      exact h.reset ho hm rfl ho'
  | @read j ret c t hm hr hs =>
    cases hs with
    | read hm' =>
      cases hm.symm.trans hm'
      exact h.read ho hm hr rfl ho'
    | readFails hm' =>
      cases hm.symm.trans hm'
      have hsockfd : (s.server.put j c).sockfd j = some j := ho.sockfd_of_working hm trivial
      rw [mainCloses_eq hsockfd] at ho' ⊢
      exact h.read ho hm hr rfl ho'
  | @nothing j t hm hsending hw hs =>
    cases hs with
    | write hm' =>
      cases hm.symm.trans hm'
      refine (h.goes ho ho' hm rfl rfl (fun hi => ?_) fun hi => {
        main := main_elsewhere (main_of_ne hm) (some_elsewhere j _) i hi
      }).follows
      subst hi
      have hstage : x.stage = writeStage s.sending := h.main .writing (view_main hm)
      rw [hsending] at hstage
      exact ⟨⟨hstage, (h.same_of_main ho hm).1 ▸ hw⟩, rfl⟩
  | enter hm hsending hw => exact h.enter ho hm hsending hw
  | round hm hsending hw => exact h.round ho hm hsending hw
  | @leave j a b r phase c act t hm hsending hw hact hs =>
    cases phase with
    | loop => cases hact
    | waiting | finished =>
      cases hact
      cases hs with
      | write hm' =>
        cases hm.symm.trans hm'
        exact h.leave ho hm hsending hw rfl ho'
    | failed =>
      cases hact
      cases hs with
      | writeFails hm' =>
        cases hm.symm.trans hm'
        have hsockfd : (s.server.put j c).sockfd j = some j := ho.sockfd_of_working hm trivial
        rw [mainCloses_eq hsockfd] at ho' ⊢
        exact h.leave ho hm hsending hw rfl ho'
  | processRead hw hr hs =>
    cases hs with
    | processRead hw' =>
      cases hw.symm.trans hw'
      exact h.processRead ho hw hr rfl ho'
  | @processWrite w j g ret c t hw hr hs =>
    have hsockfd : s.server.sockfd j = some j := congrArg View.sockfd (ho.of_serving hw id).2.2
    cases hs with
    | processWrite hw' =>
      cases hw.symm.trans hw'
      exact h.processWrite hw hr rfl hsockfd ho'
    | processWriteFails hw' =>
      cases hw.symm.trans hw'
      have hclosing : (s.server.put j c).closing j = some (.del j) := closing_eq hsockfd
      rw [hclosing] at ho' ⊢
      exact h.processWrite hw hr rfl hsockfd ho'

/-! ## 3. Runs -/

/-- The server before the first connection. -/
structure Started (s : HttpServer W) : Prop where
  server : s.server.Started
  sending : s.sending = none

/-- The slot before its first connection. -/
def slot (s : HttpServer W) (i : ℕ) : Slot := ⟨s.server.conn i, s.address i, .closed, []⟩

/-- Slot `i` of the server beside the slot alone. -/
structure Beside (i : ℕ) (s : HttpServer W) (x : Slot) : Prop where
  ordered : Ordered True s.server
  calm : s.Calm
  shows : s.Shows i x

theorem Started.beside {s₀ : HttpServer W} (h0 : s₀.Started) (i : ℕ) :
    Beside i s₀ (s₀.slot i) := by
  refine ⟨h0.server.ordered, fun p hp => ?_, ?_⟩
  · cases h0.sending.symm.trans hp
  · refine .of_closed h0.server.ordered ?_ (view_main_none h0.server.main i) rfl ⟨rfl, rfl⟩
    rw [h0.server.opened]
    exact Finset.notMem_empty i

theorem Beside.step (h : Beside i s x) (hs : Step maxRequests s as s') (hvacant : s.Vacant as) :
    ∃ bs y, Run Slot.Step x bs y ∧ Beside i s' y := by
  have ho' := ordered_step h.ordered hs hvacant
  obtain ⟨bs, y, hr, hy⟩ := h.shows.step h.ordered ho' h.calm hs
  exact ⟨bs, y, hr, ho', h.calm.step hs, hy⟩

/-- **Every slot is alone.** A run of the server is a run of `Server`, where the functions of a slot may
do anything; and as long as no worker is in a slot that is given to a new connection, each slot has come
through a run of its own, at the end of which it is what the server shows of it. So between two events
`m_linger` is unset in every slot that is armed or queued. -/
theorem slot_alone {s₀ : HttpServer W} {ls : List (List (Server.Act W))} (h0 : s₀.Started)
    (hr : Run (fun s as t => Step maxRequests s as t ∧ s.Vacant as) s₀ ls s) :
    Run (Server.Step maxRequests) s₀.server ls.flatten s.server ∧
      ∀ i, (∃ as x, Run Slot.Step (s₀.slot i) as x ∧ s.Shows i x) ∧
        (s.server.main = none → (∃ k, s.server.epoll i = some (some k)) ∨
          some i ∈ s.server.workqueue → (s.server.conn i).linger = false) := by
  refine ⟨hr.flatten fun _ _ _ hs => hs.1.run, fun i => ?_⟩
  obtain ⟨as, x, hrun, ho, -, hx⟩ :=
    hr.follows (fun _ _ _ _ h hs => h.step hs.1 hs.2) (h0.beside i)
  refine ⟨⟨as, x, hrun, hx⟩, fun hm hwaits => ?_⟩
  have hheaders := (Slot.unasked_of_run ⟨rfl, rfl⟩ hrun).headers
  rcases hwaits with ⟨k, hk⟩ | hq
  · have heq := (ho i).of_armed hk (view_main_none hm i)
    rw [← (hx.same_of_none (congrArg View.worker heq)).1]
    refine hheaders ?_
    rw [hx.armed k hk (view_main_none hm i)]
    cases k <;> exact Stage.noConfusion
  · have heq := (ho i).of_queued (view_queued hq)
    rw [← (hx.same_of_none (congrArg View.worker heq)).1]
    refine hheaders ?_
    rw [hx.queued hq]
    exact Stage.noConfusion

/-- The server of `main`, with null pointers in its slots. -/
def start : HttpServer (Fin 8) := ⟨Server.start, fun _ => .null, fun _ => .noRequest, none⟩

/-- Descriptor 5 is accepted, and what it sends is queued. -/
theorem queued_run : ∃ (ls : List (List (Server.Act (Fin 8)))) (s : HttpServer (Fin 8)),
    Run (fun s as t => Step 10000 s as t ∧ s.Vacant as) start ls s ∧ s.server.main = none ∧
      some 5 ∈ s.server.workqueue := by
  have hread : Receives HttpConn.unused.init true
      (HttpConn.unused.init.read (bytes "GET / HTTP/1.1")).2 := .ends (Prod.ext rfl rfl)
  have hone {s : HttpServer (Fin 8)} {a : Server.Act (Fin 8)} (ha : s.server.Vacant a) :
      s.Vacant [a] := fun b hb => by
    cases List.mem_singleton.1 hb
    exact ha
  have htwo {s : HttpServer (Fin 8)} {a b : Server.Act (Fin 8)} (ha : s.server.Vacant a)
      (hb : s.server.Vacant b) : s.Vacant [a, b] := fun d hd => by
    rcases List.mem_pair.1 hd with rfl | rfl
    · exact ha
    · exact hb
  exact ⟨_, _,
    .cons ⟨.outside (@Server.Step.poll _ _ _ _ [.listen] rfl rfl List.nodup_nil listen_ready) trivial,
      hone trivial⟩
    (.cons ⟨.outside (.accept rfl rfl (Finset.notMem_empty 5)) trivial, hone trivial⟩
    (.cons ⟨.outside (.checkCount rfl) trivial, hone trivial⟩
    (.cons ⟨.outside (.assign rfl) trivial, hone fun _ _ _ _ _ => nofun⟩
    (.cons ⟨.outside (.add rfl) trivial, hone trivial⟩
    (.cons ⟨.outside (.count rfl) trivial, hone trivial⟩
    (.cons ⟨.reset rfl (.reset rfl), htwo trivial trivial⟩
    (.cons ⟨.outside (@Server.Step.poll _ _ _ _ [.conn 5 .input] rfl rfl (List.nodup_singleton 5)
      (input_ready rfl)) trivial, hone trivial⟩
    (.cons ⟨.outside (.input rfl rfl) trivial, hone trivial⟩
    (.cons ⟨.read rfl hread (.read rfl nofun), htwo trivial trivial⟩
    (.single ⟨.outside (.append rfl rfl) trivial, hone trivial⟩)))))))))), rfl,
    List.mem_singleton_self _⟩

theorem slot_alone_queued : ∃ s : HttpServer (Fin 8), some 5 ∈ s.server.workqueue ∧
    (∃ as x, Run Slot.Step (start.slot 5) as x ∧ s.Shows 5 x) ∧
      (s.server.conn 5).linger = false := by
  obtain ⟨ls, s, hr, hm, hq⟩ := queued_run
  obtain ⟨-, hall⟩ := slot_alone ⟨start_started, rfl⟩ hr
  obtain ⟨hrun, hlinger⟩ := hall 5
  exact ⟨s, hq, hrun, hlinger hm (.inr hq)⟩

end SocketTest.ThreadPool.HttpServer
