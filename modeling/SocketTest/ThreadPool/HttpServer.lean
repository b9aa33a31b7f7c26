import SocketTest.Http.OneResponse
import SocketTest.ThreadPool.Serving

/-!
# The slots in the server

The server with what its slots hold: the main thread in `init`, `read` and `write` and a worker in
`process` do to a slot what `Http` says, and all else is left to `Server`.

1. The steps, each of which stands for steps of `Server`.
2. The stage of a slot, told by who has it.
3. What a slot does alone while the server takes a step.
-/

namespace SocketTest.ThreadPool

open SocketTest.Lib SocketTest.Http

/-! ## 1. The steps -/

/-- A step in which nothing is done to the fields of a slot. -/
def Server.Act.Outside {W : Type*} : Server.Act W → Prop
  | .reset | .mainSets | .read _ | .write _ _ | .writeFails => False
  | .workerSets _ | .processRead _ _ | .processWrite _ _ => False
  | _ => True

def Server.put {W : Type*} (s : Server W) (i : ℕ) (c : HttpConn) : Server W :=
  { s with conn := Function.update s.conn i c }

/-- What `read` returns, and the slot behind it. -/
inductive Receives (c : HttpConn) : Bool → HttpConn → Prop
  | ends {chunk : List UInt8} {ret : Bool} {c' : HttpConn} (h : c.read chunk = (ret, c')) :
      Receives c ret c'
  | fails {chunk : List UInt8} (h : c.readIdx + chunk.length ≤ READ_BUFFER_SIZE) :
      Receives c false (c.receive chunk)

/-- What `process_read` returns, and the slot and `m_file_address` behind it. `mmap` of no bytes
fails. -/
inductive Parses (c : HttpConn) (address : Address) : HttpCode → HttpConn → Address → Prop
  | code {files : Files} {ret : HttpCode} {c' : HttpConn} (h : c.Replies files ret c')
      (hret : ret ≠ .fileRequest) : Parses c address ret c' address
  | file {files : Files} {c' : HttpConn} {p : Address} (h : c.Replies files .fileRequest c')
      (hp : p ≠ .null) (hsize : p ≠ .failed → 0 < c'.fileSize) : Parses c address .fileRequest c' p

/-- How `write` is left. -/
def leaving (W : Type*) : Phase → Option (Server.Act W)
  | .waiting => some (.write .output .done)
  | .loop _ _ => none
  | .finished result => some (.write .input (if result then .done else .close))
  | .failed => some .writeFails

structure HttpServer (W : Type*) where
  server : Server W
  /-- `m_file_address` -/
  address : ℕ → Address
  /-- `read_ret` of a worker in `process` -/
  readRet : W → HttpCode
  /-- `bytes_to_send` and `bytes_have_send` of the main thread in the loop of `write` -/
  sending : Option (ℤ × ℤ)

namespace HttpServer

variable {W : Type*} [DecidableEq W]

/-- A step, with the steps of `Server` that it stands for. A function of a slot is one step, but for the
rounds of `write`, which may not come to an end. -/
inductive Step (maxRequests : ℕ) (s : HttpServer W) : List (Server.Act W) → HttpServer W → Prop
  | outside {a : Server.Act W} {t : Server W} (hs : Server.Step maxRequests s.server a t)
      (ha : a.Outside) : Step maxRequests s [a] { s with server := t }
  | reset {i : ℕ} {t : Server W} (hm : s.server.main = some (i, .resetting))
      (hs : Server.Step maxRequests (s.server.put i (s.server.conn i).init) .reset t) :
      Step maxRequests s [.mainSets, .reset] { s with server := t }
  | read {i : ℕ} {ret : Bool} {c : HttpConn} {t : Server W}
      (hm : s.server.main = some (i, .reading)) (hr : Receives (s.server.conn i) ret c)
      (hs : Server.Step maxRequests (s.server.put i c) (.read ret) t) :
      Step maxRequests s [.mainSets, .read ret] { s with server := t }
  | nothing {i : ℕ} {t : Server W} (hm : s.server.main = some (i, .writing))
      (hsending : s.sending = none) (hw : (s.server.conn i).writeIdx = 0)
      (hs : Server.Step maxRequests s.server (.write .input .reset) t) :
      Step maxRequests s [.write .input .reset] { s with server := t }
  | enter {i : ℕ} {a b : ℤ} (hm : s.server.main = some (i, .writing)) (hsending : s.sending = none)
      (hw : (s.server.conn i).writeStart = (.loop a b, s.server.conn i)) :
      Step maxRequests s [] { s with sending := some (a, b) }
  | round {i : ℕ} {a b a' b' : ℤ} {r : Writev} (hm : s.server.main = some (i, .writing))
      (hsending : s.sending = some (a, b))
      (hw : (s.server.conn i).writeRound a b r = (.loop a' b', s.server.conn i)) :
      Step maxRequests s [] { s with sending := some (a', b') }
  | leave {i : ℕ} {a b : ℤ} {r : Writev} {phase : Phase} {c : HttpConn} {act : Server.Act W}
      {t : Server W} (hm : s.server.main = some (i, .writing)) (hsending : s.sending = some (a, b))
      (hw : (s.server.conn i).writeRound a b r = (phase, c)) (hact : leaving W phase = some act)
      (hs : Server.Step maxRequests (s.server.put i c) act t) :
      Step maxRequests s [.mainSets, act]
        { s with
          server := t
          address := if phase = .waiting then s.address else Function.update s.address i .null
          sending := none }
  | processRead {w : W} {i g : ℕ} {ret : HttpCode} {c : HttpConn} {p : Address} {t : Server W}
      (hw : s.server.worker w = .busy i g .reading)
      (hr : Parses (s.server.conn i) (s.address i) ret c p)
      (hs : Server.Step maxRequests (s.server.put i c) (.processRead w ret) t) :
      Step maxRequests s [.workerSets w, .processRead w ret]
        { s with
          server := t
          address := Function.update s.address i p
          readRet := Function.update s.readRet w ret }
  | processWrite {w : W} {i g : ℕ} {ret : Bool} {c : HttpConn} {t : Server W}
      (hw : s.server.worker w = .busy i g .responding)
      (hr : (s.server.conn i).processWrite (s.readRet w) = (ret, c))
      (hs : Server.Step maxRequests (s.server.put i c) (.processWrite w ret) t) :
      Step maxRequests s [.workerSets w, .processWrite w ret] { s with server := t }

/-- No worker is in the slot whose `m_sockfd` is assigned. -/
def Vacant (s : HttpServer W) (as : List (Server.Act W)) : Prop := ∀ a ∈ as, s.server.Vacant a

variable {maxRequests i : ℕ} {s s' : HttpServer W} {as : List (Server.Act W)} {x y : Slot}

theorem Step.run (hs : Step maxRequests s as s') :
    Run (Server.Step maxRequests) s.server as s'.server := by
  cases hs with
  | outside hs _ => exact .single hs
  | reset hm hs => exact .cons (.mainSets hm (.inl rfl)) (.single hs)
  | read hm _ hs => exact .cons (.mainSets hm (.inr (.inl rfl))) (.single hs)
  | nothing _ _ _ hs => exact .single hs
  | enter | round => exact .nil _
  | leave hm _ _ _ hs => exact .cons (.mainSets hm (.inr (.inr rfl))) (.single hs)
  | processRead hw _ hs => exact .cons (.workerSets hw (.inl rfl)) (.single hs)
  | processWrite hw _ hs => exact .cons (.workerSets hw (.inr rfl)) (.single hs)

theorem ordered_put {lossy : Prop} {t : Server W} (h : Server.Ordered lossy t) (c : HttpConn) :
    Server.Ordered lossy (t.put i c) := h

theorem ordered_step (h : Server.Ordered True s.server) (hs : Step maxRequests s as s')
    (hvacant : s.Vacant as) : Server.Ordered True s'.server := by
  cases hs with
  | outside hs _ => exact h.step hs (hvacant _ (List.mem_singleton_self _)) (.inl trivial)
  | reset _ hs => exact (ordered_put h _).step hs trivial (.inl trivial)
  | read _ _ hs => exact (ordered_put h _).step hs trivial (.inl trivial)
  | nothing _ _ _ hs => exact h.step hs trivial (.inl trivial)
  | enter | round => exact h
  | @leave i a b r phase c act t _ _ _ hact hs =>
    refine (ordered_put h c).step hs ?_ (.inl trivial)
    cases phase with
    | loop => cases hact
    | waiting | finished | failed =>
      cases hact
      trivial
  | processRead _ _ hs => exact (ordered_put h _).step hs trivial (.inl trivial)
  | processWrite _ _ hs => exact (ordered_put h _).step hs trivial (.inl trivial)

end HttpServer

/-! ## 2. The stage of a slot -/

def Interest.stage : Interest → Stage
  | .input => .armedIn
  | .output => .armedOut

def Branch.Shows (st : Stage) : Branch → Prop
  | .hangUp => st = .armedIn ∨ st = .armedOut
  | .input => st = .armedIn
  | .output => st = .armedOut

def writeStage : Option (ℤ × ℤ) → Stage
  | none => .armedOut
  | some (a, b) => .writing a b

/-- What the point of the main thread tells of its slot. The slot of a new connection is armed before
its fields are set. -/
def MainPc.Shows (sending : Option (ℤ × ℤ)) (epoll : Option (Option Interest)) (x : Slot) :
    MainPc → Prop
  | .accepted | .refusing | .assigning | .adding | .closing _ => x.stage = .closed
  | .counting => x.stage = .closed ∧ epoll = some (some .input)
  | .resetting => (x.stage = .closed ∨ x.stage = .armedOut ∧ x.conn.writeIdx = 0) ∧
      epoll = some (some .input)
  | .reading => x.stage = .armedIn
  | .appending => x.stage = .queued
  | .writing => x.stage = writeStage sending
  | .rearming ev .done => x.stage = ev.stage
  | .rearming ev .reset => (x.stage = .armedOut ∧ x.conn.writeIdx = 0) ∧ ev = .input
  | .rearming _ .close => x.stage = .closed

def ProcessPc.Shows (st : Stage) : ProcessPc → Prop
  | .reading | .responding => st = .queued
  | .closing _ => st = .closed
  | .rearming ev => st = ev.stage

theorem ProcessPc.Stale.not_serves {i : ℕ} {pc : ProcessPc} (h : pc.Stale (some i)) :
    ¬ pc.Serves i := by
  cases pc with
  | closing p =>
    cases p with
    | clear | count => exact id
    | del | close => cases h
  | rearming ev => cases ev <;> cases h
  | reading | responding => cases h

namespace HttpServer

open Server

variable {W : Type*}

/-- The slot alone is as the server has it. A worker between `process_read` and `process_write` is ahead
of it. -/
structure Shows (s : HttpServer W) (i : ℕ) (x : Slot) : Prop where
  same : (∀ w g, (s.server.worker w).at_ i ≠ some (g, .responding)) →
    x.conn = s.server.conn i ∧ x.address = s.address i
  ahead : ∀ w g, (s.server.worker w).at_ i = some (g, .responding) →
    Parses x.conn x.address (s.readRet w) (s.server.conn i) (s.address i) ∧
      s.readRet w ≠ .noRequest
  closed : i ∉ s.server.opened → x.stage = .closed
  main : ∀ pc, mainAt i s.server.main = some pc → pc.Shows s.sending (s.server.epoll i) x
  armed : ∀ k, s.server.epoll i = some (some k) → mainAt i s.server.main = none → x.stage = k.stage
  ready : ∀ branch, .conn i branch ∈ s.server.evs → branch.Shows x.stage
  queued : some i ∈ s.server.workqueue → x.stage = .queued
  worker : ∀ w g pc, (s.server.worker w).at_ i = some (g, pc) → ¬ pc.Stale (s.server.sockfd i) →
    pc.Shows x.stage

variable {maxRequests i : ℕ} {s s' : HttpServer W} {as : List (Server.Act W)} {x y : Slot}

/-- A step that does not concern slot `i`. -/
structure Same (s s' : HttpServer W) (i : ℕ) : Prop where
  conn : s'.server.conn i = s.server.conn i := by rfl
  address : s'.address i = s.address i := by rfl
  readRet : ∀ w, (s.server.worker w).at_ i ≠ none → s'.readRet w = s.readRet w := by intros; rfl
  sending : mainAt i s.server.main = none ∨ s'.sending = s.sending := by exact .inr rfl
  opened : i ∈ s.server.opened → i ∈ s'.server.opened := by exact id
  sockfd : s'.server.sockfd i = s.server.sockfd i := by rfl
  epoll : s'.server.epoll i = s.server.epoll i := by rfl
  evs : ∀ branch, .conn i branch ∈ s'.server.evs → .conn i branch ∈ s.server.evs := by
    exact fun _ => id
  workqueue : some i ∈ s'.server.workqueue → some i ∈ s.server.workqueue := by exact id
  main : mainAt i s'.server.main = mainAt i s.server.main := by rfl
  worker : ∀ w, (s'.server.worker w).at_ i = (s.server.worker w).at_ i := by intros; rfl

theorem Shows.elsewhere (h : s.Shows i x) (hsame : Same s s' i) : s'.Shows i x := by
  refine ⟨fun hn => ?_, fun w g hw => ?_, fun ho => h.closed fun ho' => ho (hsame.opened ho'),
    fun pc hm => ?_, fun k hk hm => ?_, fun branch hb => h.ready branch (hsame.evs branch hb),
    fun hq => h.queued (hsame.workqueue hq), fun w g pc hw hstale => ?_⟩
  · rw [hsame.conn, hsame.address]
    exact h.same fun w g => hsame.worker w ▸ hn w g
  · rw [hsame.worker] at hw
    rw [hsame.conn, hsame.address, hsame.readRet w (by rw [hw]; exact Option.some_ne_none _)]
    exact h.ahead w g hw
  · rw [hsame.main] at hm
    rw [hsame.epoll, hsame.sending.resolve_left (by rw [hm]; exact Option.some_ne_none _)]
    exact h.main pc hm
  · exact h.armed k (hsame.epoll ▸ hk) (hsame.main ▸ hm)
  · rw [hsame.worker] at hw
    rw [hsame.sockfd] at hstale
    exact h.worker w g pc hw hstale

/-! ### By who has the slot -/

theorem view_ready {branch : Branch} (h : .conn i branch ∈ s.server.evs) :
    (s.server.view i).ready ≠ 0 :=
  ne_of_gt (List.count_pos_iff.2 (List.mem_filterMap.2 ⟨_, h, rfl⟩))

theorem view_queued (h : some i ∈ s.server.workqueue) : (s.server.view i).queued ≠ 0 :=
  ne_of_gt (List.count_pos_iff.2 h)

theorem not_stale_responding {sockfd : Option ℕ} : ¬ ProcessPc.responding.Stale sockfd := id

/-- The main thread or `epoll` has the slot, or nobody. -/
theorem Shows.of_unserved (hready : (s.server.view i).ready = 0) (hqueued : (s.server.view i).queued = 0)
    (hstale : Stale (s.server.view i).sockfd (s.server.view i).worker)
    (hsame : x.conn = s.server.conn i ∧ x.address = s.address i)
    (hclosed : i ∉ s.server.opened → x.stage = .closed)
    (hmain : ∀ pc, mainAt i s.server.main = some pc → pc.Shows s.sending (s.server.epoll i) x)
    (harmed : ∀ k, s.server.epoll i = some (some k) → mainAt i s.server.main = none →
      x.stage = k.stage) : s.Shows i x where
  same _ := hsame
  ahead w g hw := absurd (hstale w g _ hw) not_stale_responding
  closed := hclosed
  main := hmain
  armed := harmed
  ready _ hb := absurd hready (view_ready hb)
  queued hq := absurd hqueued (view_queued hq)
  worker w g pc hw hn := absurd (hstale w g pc hw) hn

theorem Sees.unserved {v : View W} {pc : MainPc} (h : Sees i v pc) :
    v.ready = 0 ∧ v.queued = 0 ∧ Stale v.sockfd v.worker ∧
      (v.opened = false → ∃ p, pc = .closing p) := by
  have hnobody {sockfd : Option ℕ} : Stale sockfd (fun _ : W => none) := fun _ _ _ hw => by cases hw
  cases pc with
  | accepted | refusing | assigning =>
    obtain ⟨heq, hstale⟩ := h
    exact ⟨congrArg View.ready heq, congrArg View.queued heq, hstale, fun ho => by
      rw [heq] at ho; cases ho⟩
  | adding | reading | appending | writing | rearming =>
    have heq : v = _ := h
    rw [heq]
    exact ⟨rfl, rfl, hnobody, Bool.noConfusion⟩
  | counting | resetting =>
    obtain ⟨k, heq⟩ := h
    rw [heq]
    exact ⟨rfl, rfl, hnobody, Bool.noConfusion⟩
  | closing p =>
    rcases h with ⟨-, heq⟩ | ⟨-, hstale, heq⟩
    · rw [heq]
      exact ⟨rfl, rfl, hnobody, Bool.noConfusion⟩
    · exact ⟨congrArg View.ready heq, congrArg View.queued heq, hstale, fun _ => ⟨p, rfl⟩⟩

theorem Shows.of_main [DecidableEq W] (ho : Ordered True s.server) {pc : MainPc}
    (hm : s.server.main = some (i, pc)) (hx : pc.Shows s.sending (s.server.epoll i) x)
    (hsame : x.conn = s.server.conn i ∧ x.address = s.address i) : s.Shows i x := by
  obtain ⟨hready, hqueued, hstale, hopened⟩ := Sees.unserved ((ho i).of_main (view_main hm))
  have hat : mainAt i s.server.main = some pc := view_main hm
  refine .of_unserved hready hqueued hstale hsame (fun hclosed => ?_) (fun pc' hm' => ?_) ?_
  · obtain ⟨p, rfl⟩ := hopened (decide_eq_false hclosed)
    exact hx
  · rw [hat] at hm'
    cases hm'
    exact hx
  · intro k _ hm'
    rw [hat] at hm'
    cases hm'

theorem Shows.of_armed [DecidableEq W] (ho : Ordered True s.server) {k : Interest}
    (hk : s.server.epoll i = some (some k)) (hm : mainAt i s.server.main = none)
    (hx : x.stage = k.stage) (hsame : x.conn = s.server.conn i ∧ x.address = s.address i) :
    s.Shows i x := by
  have heq := (ho i).of_armed hk hm
  have hopened : i ∈ s.server.opened := of_decide_eq_true (congrArg View.opened heq)
  have hworker : (s.server.view i).worker = fun _ => none := congrArg View.worker heq
  refine .of_unserved (congrArg View.ready heq) (congrArg View.queued heq) ?_ hsame
    (fun hclosed => absurd hopened hclosed) (fun pc hm' => ?_) fun k' hk' _ => ?_
  · rw [hworker]
    exact fun _ _ _ hw => by cases hw
  · rw [hm] at hm'
    cases hm'
  · rw [hk] at hk'
    cases hk'
    exact hx

/-- The main thread has left a slot that is closed. -/
theorem Shows.of_closed [DecidableEq W] (ho : Ordered True s.server) (hopened : i ∉ s.server.opened)
    (hm : mainAt i s.server.main = none) (hx : x.stage = .closed)
    (hsame : x.conn = s.server.conn i ∧ x.address = s.address i) : s.Shows i x := by
  obtain ⟨hstale, heq⟩ := (ho i).of_closed (decide_eq_false hopened) hm
  have hepoll : s.server.epoll i = none := congrArg View.epoll heq
  refine .of_unserved (congrArg View.ready heq) (congrArg View.queued heq) hstale hsame (fun _ => hx)
    (fun pc hm' => ?_) fun k hk _ => ?_
  · rw [hm] at hm'
    cases hm'
  · rw [hepoll] at hk
    cases hk

theorem Shows.of_queued [DecidableEq W] (ho : Ordered True s.server) (hq : some i ∈ s.server.workqueue)
    (hx : x.stage = .queued) (hsame : x.conn = s.server.conn i ∧ x.address = s.address i) :
    s.Shows i x := by
  have heq := (ho i).of_queued (view_queued hq)
  have hopened : i ∈ s.server.opened := of_decide_eq_true (congrArg View.opened heq)
  have hmain : mainAt i s.server.main = none := congrArg View.main heq
  have hepoll : s.server.epoll i = some none := congrArg View.epoll heq
  have hworker (w : W) : (s.server.worker w).at_ i = none := congrFun (congrArg View.worker heq) w
  refine ⟨fun _ => hsame, fun w g hw => ?_, fun hclosed => absurd hopened hclosed, fun pc hm => ?_,
    fun k hk => ?_, fun branch hb => absurd (congrArg View.ready heq) (view_ready hb), fun _ => hx,
    fun w g pc hw => ?_⟩
  · rw [hworker] at hw
    cases hw
  · rw [hmain] at hm
    cases hm
  · rw [hepoll] at hk
    cases hk
  · rw [hworker] at hw
    cases hw

/-- A worker has the slot. -/
theorem Shows.of_worker [DecidableEq W] (ho : Ordered True s.server) {w : W} {g : ℕ} {pc : ProcessPc}
    (hw : s.server.worker w = .busy i g pc) (hstale : ¬ pc.Stale (s.server.sockfd i))
    (hx : pc.Shows x.stage)
    (hsame : pc ≠ .responding → x.conn = s.server.conn i ∧ x.address = s.address i)
    (hahead : pc = .responding → Parses x.conn x.address (s.readRet w) (s.server.conn i)
      (s.address i) ∧ s.readRet w ≠ .noRequest) : s.Shows i x := by
  obtain ⟨-, hepoll, heq⟩ := ho.of_serving hw hstale
  have hopened : i ∈ s.server.opened := of_decide_eq_true (congrArg View.opened heq)
  have hmain : mainAt i s.server.main = none := congrArg View.main heq
  have hworker : ∀ w' g' pc', (s.server.worker w').at_ i = some (g', pc') → w' = w ∧ pc' = pc := by
    intro w' g' pc' hw'
    have hw'' : (s.server.view i).worker w' = some (g', pc') := hw'
    rw [heq] at hw''
    obtain ⟨hw', -, hpc⟩ := only_some hw''
    exact ⟨hw', hpc⟩
  refine ⟨fun hn => hsame fun hpc => ?_, fun w' g' hw' => ?_, fun hclosed => absurd hopened hclosed,
    fun pc' hm => ?_, fun k hk => ?_,
    fun branch hb => absurd (congrArg View.ready heq) (view_ready hb),
    fun hq => absurd (congrArg View.queued heq) (view_queued hq), fun w' g' pc' hw' _ => ?_⟩
  · exact hn w g (hpc ▸ view_worker hw)
  · obtain ⟨rfl, hpc⟩ := hworker w' g' _ hw'
    exact hahead hpc.symm
  · rw [hmain] at hm
    cases hm
  · rcases hepoll with h | ⟨h, -⟩
    · rw [h] at hk
      cases hk
    · rw [h] at hk
      cases hk
  · rw [(hworker w' g' pc' hw').2]
    exact hx

/-! ## 3. Alone -/

/-- The slot alone has caught up where no worker has it. -/
theorem Shows.same_of_stale (h : s.Shows i x) {sockfd : Option ℕ}
    (hstale : Stale sockfd (s.server.view i).worker) :
    x.conn = s.server.conn i ∧ x.address = s.address i :=
  h.same fun w g hw => hstale w g _ hw

theorem Shows.same_of_main [DecidableEq W] (h : s.Shows i x) (ho : Ordered True s.server) {pc : MainPc}
    (hm : s.server.main = some (i, pc)) : x.conn = s.server.conn i ∧ x.address = s.address i :=
  h.same_of_stale (Sees.unserved ((ho i).of_main (view_main hm))).2.2.1

theorem Shows.same_of_none (h : s.Shows i x) (hnone : (s.server.view i).worker = fun _ => none) :
    x.conn = s.server.conn i ∧ x.address = s.address i :=
  h.same fun w g hw => by
    have hw' : (s.server.view i).worker w = some (g, .responding) := hw
    rw [hnone] at hw'
    cases hw'

theorem Shows.same_of_worker [DecidableEq W] (h : s.Shows i x) (ho : Ordered True s.server) {w : W}
    {g : ℕ} {pc : ProcessPc} (hw : s.server.worker w = .busy i g pc)
    (hstale : ¬ pc.Stale (s.server.sockfd i)) (hne : pc ≠ .responding) :
    x.conn = s.server.conn i ∧ x.address = s.address i := by
  obtain ⟨-, -, heq⟩ := ho.of_serving hw hstale
  refine h.same fun w' g' hw' => hne ?_
  have hw'' : (s.server.view i).worker w' = some (g', .responding) := hw'
  rw [heq] at hw''
  exact (only_some hw'').2.2.symm

/-- What the slot alone does on a step of the server. -/
def Follows (x : Slot) (s : HttpServer W) (i : ℕ) : Prop :=
  ∃ as y, Run Slot.Step x as y ∧ s.Shows i y

theorem Shows.follows (h : s.Shows i x) : Follows x s i := ⟨[], x, .nil x, h⟩

theorem follows_step {act : Http.Act} (hs : Slot.Step x act y) (h : s.Shows i y) : Follows x s i :=
  ⟨[act], y, .single hs, h⟩

end HttpServer

end SocketTest.ThreadPool
