import SocketTest.Lib.Run

/-!
# The two servers of `epoll.cc`

`epoll_wait` returns a batch of events, which `lt` or `et` goes through. A registered socket gives
an event while it is ready (`lt`), or once after each thing that happens on it (`et`). `lt` calls
`recv` once for an event and `et` until it fails. Connections are numbered as they arrive: no two
events of a batch are of one descriptor, so that a descriptor closed in a batch, and given out again
by `accept`, is not named by the rest of it.

1. Connections, what their peers do, and `recv`.
2. The servers.
3. `inv_run`: what holds in every state, and `reads_in_order` from it.
-/

namespace SocketTest.Multiplexing

open SocketTest.Lib

/-! ## 1. Connections -/

def BUFFER_SIZE : ℕ := 5

/-- Whether the peer has ended the connection, and how. -/
inductive Ending
  | going
  | fin
  | reset
  deriving DecidableEq

/-- The urgent byte: none, one that is announced, or one that has arrived and not been read. -/
inductive Urgent
  | clear
  | announced
  | present
  deriving DecidableEq

structure Conn where
  /-- what has arrived in the stream and has not been read -/
  unread : List UInt8
  urgent : Urgent
  ending : Ending
  /-- the server has closed it -/
  closed : Bool
  /-- something has happened since the last report -/
  queued : Bool
  /-- what the server has read -/
  taken : List UInt8
  /-- everything that has arrived in the stream -/
  received : List UInt8
  /-- the urgent bytes that have been announced -/
  alarms : ℕ

namespace Conn

def fresh : Conn := ⟨[], .clear, .going, false, false, [], [], 0⟩

/-- `EPOLLIN`. -/
def Readable (c : Conn) : Prop := c.unread ≠ [] ∨ c.ending ≠ .going

instance (c : Conn) : Decidable c.Readable := inferInstanceAs (Decidable (_ ∨ _))

/-- `EPOLLIN` or `EPOLLPRI`. -/
def ready (c : Conn) : Bool := c.Readable ∨ c.urgent = .present

def arrive (c : Conn) (bs : List UInt8) : Conn :=
  { c with unread := c.unread ++ bs, received := c.received ++ bs, queued := true }

/-- An urgent byte is announced. One that it displaces goes back to the stream. -/
def announce (c : Conn) (unread : List UInt8) : Conn :=
  { c with
    urgent := .announced
    unread := unread
    received := c.taken ++ unread
    queued := true
    alarms := c.alarms + 1 }

def alarm (c : Conn) : Conn := { c with urgent := .present, queued := true }

def finish (c : Conn) (e : Ending) : Conn := { c with ending := e, queued := true }

/-- What the peer does to a connection that is going on. -/
inductive Peer (c : Conn) : Conn → Prop
  | arrive (bs : List UInt8) : Peer c (c.arrive bs)
  | announce {unread : List UInt8} (h : c.unread.Sublist unread) : Peer c (c.announce unread)
  | alarm (h : c.urgent = .announced) : Peer c c.alarm
  | finish {e : Ending} (h : e ≠ .going) : Peer c (c.finish e)

/-- `EPOLL_CTL_ADD` queues a socket that is ready. -/
def added (c : Conn) : Conn := { c with queued := c.ready }

def reported (c : Conn) : Conn := { c with queued := false }

/-- `close`, when `b` says so. -/
def closeIf (c : Conn) (b : Bool) : Conn := { c with closed := c.closed || b }

/-- `n` bytes are read; reading past an urgent byte drops it. -/
def read (c : Conn) (n : ℕ) (u : Urgent) : Conn :=
  { c with unread := c.unread.drop n, taken := c.taken ++ c.unread.take n, urgent := u }

end Conn

/-- What a call of `recv` returns: bytes, 0, -1 with `EAGAIN`, or -1 for another reason. -/
inductive Outcome
  | bytes
  | zero
  | again
  | error
  deriving DecidableEq

/-- `recv(sockfd, buf, BUFFER_SIZE - 1, 0)`. -/
inductive Recv (c : Conn) : Outcome → Conn → Prop
  | bytes {n : ℕ} {u : Urgent} (ho : c.closed = false) (h0 : 0 < n) (hn : n ≤ BUFFER_SIZE - 1)
      (hlen : n ≤ c.unread.length) (hu : u = c.urgent ∨ c.urgent = .present ∧ u = .clear) :
      Recv c .bytes (c.read n u)
  | zero (ho : c.closed = false) (h : c.unread = []) (he : c.ending = .fin) : Recv c .zero c
  | again (ho : c.closed = false) (h : c.unread = []) (he : c.ending = .going) : Recv c .again c
  | reset (ho : c.closed = false) (h : c.unread = []) (he : c.ending = .reset) : Recv c .error c
  | closed (h : c.closed = true) : Recv c .error c

/-- `recv(sockfd, buf, BUFFER_SIZE - 1, MSG_OOB)`. -/
inductive RecvOob (c : Conn) : Outcome → Conn → Prop
  | byte (ho : c.closed = false) (hu : c.urgent = .present) (he : c.ending ≠ .reset) :
      RecvOob c .bytes { c with urgent := .clear }
  | zero (ho : c.closed = false) (hu : c.urgent = .announced) (he : c.ending = .fin) :
      RecvOob c .zero c
  | again (ho : c.closed = false) (hu : c.urgent = .announced) (he : c.ending = .going) :
      RecvOob c .again c
  | clear (ho : c.closed = false) (hu : c.urgent = .clear) : RecvOob c .error c
  | reset (ho : c.closed = false) (he : c.ending = .reset) : RecvOob c .error c
  | closed (h : c.closed = true) : RecvOob c .error c

/-! ## 2. The servers -/

inductive Trigger
  | level
  | edge
  deriving DecidableEq

/-- An event of a batch. With `EPOLLIN` set, the other bits are not looked at. -/
inductive Item
  | listen
  | input (i : ℕ)
  | urgent (i : ℕ)
  deriving DecidableEq

/-- The connection an event is of. -/
def Item.source : Item → Option ℕ
  | .listen => none
  | .input i => some i
  | .urgent i => some i

/-- The call of `recv` for an event. -/
def Item.Recv : Item → Conn → Outcome → Conn → Prop
  | .listen => fun _ _ _ => False
  | .input _ => Multiplexing.Recv
  | .urgent _ => RecvOob

/-- Whether `lt` closes the socket, and what is left of the batch. -/
def lt (x : Item) (rest : List Item) : Outcome → Bool × List Item
  | .bytes => (false, rest)
  | _ =>
    match x with
    | .input _ => (true, [])
    | _ => (true, rest)

/-- The same for a round of the loops of `et`, which behind `close` go on. -/
def et (x : Item) (rest : List Item) : Outcome → Bool × List Item
  | .bytes => (false, x :: rest)
  | .zero => (true, x :: rest)
  | .again => (false, rest)
  | .error => (true, rest)

def Trigger.handle : Trigger → Item → List Item → Outcome → Bool × List Item
  | .level => lt
  | .edge => et

/-- The urgent bytes with which a server does not close the connection. -/
def Trigger.tolerated : Trigger → ℕ
  | .level => 1
  | .edge => 0

structure Server where
  arrived : ℕ
  accepted : ℕ
  conn : ℕ → Conn
  /-- what is left of the batch; with nothing left, the server is in `epoll_wait` -/
  batch : List Item

namespace Server

def start : Server := ⟨0, 0, fun _ => .fresh, []⟩

def setConn (s : Server) (i : ℕ) (c : Conn) : Server :=
  { s with conn := Function.update s.conn i c }

/-- Registered, and for `et` on the list of sockets on which something has happened. -/
def Watches (s : Server) (t : Trigger) (i : ℕ) : Prop :=
  i < s.accepted ∧ (s.conn i).closed = false ∧ (t = .edge → (s.conn i).queued = true)

/-- The events that `epoll_wait` may return. The listening socket is level-triggered in both
servers. -/
def Reports (s : Server) (t : Trigger) : Item → Prop
  | .listen => s.accepted < s.arrived
  | .input i => s.Watches t i ∧ (s.conn i).Readable
  | .urgent i => s.Watches t i ∧ ¬ (s.conn i).Readable ∧ (s.conn i).urgent = .present

def connect (s : Server) : Server :=
  { s with arrived := s.arrived + 1, conn := Function.update s.conn s.arrived .fresh }

def waited (s : Server) (items : List Item) : Server :=
  { s with
    conn := fun i => if some i ∈ items.map Item.source then (s.conn i).reported else s.conn i
    batch := items }

def accept (s : Server) (rest : List Item) : Server :=
  { s with
    accepted := s.accepted + 1
    conn := Function.update s.conn s.accepted (s.conn s.accepted).added
    batch := rest }

/-- Behind a call of `recv` that leaves the connection as `c`. -/
def handled (s : Server) (t : Trigger) (x : Item) (rest : List Item) (i : ℕ) (o : Outcome)
    (c : Conn) : Server :=
  { s with
    conn := Function.update s.conn i (c.closeIf (t.handle x rest o).1)
    batch := (t.handle x rest o).2 }

end Server

/-- The peers' steps. -/
inductive Peers (s : Server) : Server → Prop
  | connect : Peers s s.connect
  | conn {i : ℕ} {c : Conn} (hi : i < s.arrived) (ho : (s.conn i).closed = false)
      (he : (s.conn i).ending = .going) (h : (s.conn i).Peer c) : Peers s (s.setConn i c)

/-- The server's steps. `accept` finds nothing to accept only when it fails, with `EAGAIN`. -/
inductive Serve (t : Trigger) (s : Server) : Server → Prop
  | wait {items : List Item} (hb : s.batch = []) (hne : items ≠ [])
      (hnd : (items.map Item.source).Nodup) (hr : ∀ x ∈ items, s.Reports t x) :
      Serve t s (s.waited items)
  | accept {rest : List Item} (hb : s.batch = .listen :: rest) (h : s.accepted < s.arrived) :
      Serve t s (s.accept rest)
  | acceptFails {rest : List Item} (hb : s.batch = .listen :: rest) (h : s.arrived ≤ s.accepted) :
      Serve t s { s with batch := rest }
  | recv {x : Item} {rest : List Item} {i : ℕ} {o : Outcome} {c : Conn} (hb : s.batch = x :: rest)
      (hx : x.source = some i) (hr : x.Recv (s.conn i) o c) : Serve t s (s.handled t x rest i o c)

inductive Party
  | peers
  | server

def Step (t : Trigger) (s : Server) : Party → Server → Prop
  | .peers => Peers s
  | .server => Serve t s

/-- A connection that has been accepted. -/
def oneAccepted : Server := (Server.start.connect.waited [.listen]).accept []

/-- Its peer has sent an urgent byte. -/
def oneAlarmed : Server :=
  (oneAccepted.setConn 0 ((oneAccepted.conn 0).announce [])).setConn 0
    ((oneAccepted.conn 0).announce []).alarm

/-- Its peer has sent two bytes and closed. -/
def oneEnded : Server :=
  (oneAccepted.setConn 0 ((oneAccepted.conn 0).arrive [104, 105])).setConn 0
    (((oneAccepted.conn 0).arrive [104, 105]).finish .fin)

/-- `et` has read the two bytes. -/
def oneRead : Server :=
  (oneEnded.waited [.input 0]).handled .edge (.input 0) [] 0 .bytes
    (((oneEnded.waited [.input 0]).conn 0).read 2 .clear)

/-- It has closed the connection. -/
def oneServed : Server := oneRead.handled .edge (.input 0) [] 0 .zero (oneRead.conn 0)

theorem oneAccepted_run (t : Trigger) :
    Run (Step t) .start [.peers, .server, .server] oneAccepted := by
  have hlisten : Step t Server.start.connect .server (Server.start.connect.waited [.listen]) := by
    refine Serve.wait rfl (List.cons_ne_nil _ _) (List.nodup_singleton _) fun x hx => ?_
    rw [List.mem_singleton.1 hx]
    exact Nat.one_pos
  exact .cons Peers.connect (.cons hlisten (.single (Serve.accept rfl Nat.one_pos)))

theorem oneAlarmed_run (t : Trigger) :
    Run (Step t) .start ([.peers, .server, .server] ++ [.peers, .peers, .server])
      (oneAlarmed.waited [.urgent 0]) := by
  have hannounce : Step t oneAccepted .peers
      (oneAccepted.setConn 0 ((oneAccepted.conn 0).announce [])) :=
    Peers.conn Nat.one_pos rfl rfl (.announce (List.nil_sublist _))
  have halarm : Step t (oneAccepted.setConn 0 ((oneAccepted.conn 0).announce [])) .peers
      oneAlarmed :=
    Peers.conn Nat.one_pos rfl rfl (.alarm rfl)
  have htold : Step t oneAlarmed .server (oneAlarmed.waited [.urgent 0]) := by
    refine Serve.wait rfl (List.cons_ne_nil _ _) (List.nodup_singleton _) fun x hx => ?_
    rw [List.mem_singleton.1 hx]
    exact ⟨⟨Nat.one_pos, rfl, fun _ => rfl⟩, by decide, rfl⟩
  exact (oneAccepted_run t).append (.cons hannounce (.cons halarm (.single htold)))

theorem oneServed_run :
    Run (Step .edge) .start ([.peers, .server, .server] ++ [.peers, .peers, .server, .server, .server])
      oneServed := by
  have harrive : Step .edge oneAccepted .peers
      (oneAccepted.setConn 0 ((oneAccepted.conn 0).arrive [104, 105])) :=
    Peers.conn Nat.one_pos rfl rfl (.arrive _)
  have hfin : Step .edge (oneAccepted.setConn 0 ((oneAccepted.conn 0).arrive [104, 105])) .peers
      oneEnded :=
    Peers.conn Nat.one_pos rfl rfl (.finish Ending.noConfusion)
  have htold : Step .edge oneEnded .server (oneEnded.waited [.input 0]) := by
    refine Serve.wait rfl (List.cons_ne_nil _ _) (List.nodup_singleton _) fun x hx => ?_
    rw [List.mem_singleton.1 hx]
    exact ⟨⟨Nat.one_pos, rfl, fun _ => rfl⟩, .inl (List.cons_ne_nil _ _)⟩
  have hread : Step .edge (oneEnded.waited [.input 0]) .server oneRead :=
    Serve.recv rfl rfl (Recv.bytes rfl (by decide) (by decide) (by decide) (.inl rfl))
  have hzero : Step .edge oneRead .server oneServed := Serve.recv rfl rfl (Recv.zero rfl rfl rfl)
  exact (oneAccepted_run _).append (.cons harrive (.cons hfin (.cons htold (.cons hread
    (.single hzero)))))

/-! ## 3. Every state -/

variable {t : Trigger} {s s' : Server} {c c' : Conn} {x : Item} {rest : List Item} {i j : ℕ}
  {o : Outcome}

/-- The stream is read in order, and a connection is closed for a reason. -/
structure Conn.Good (t : Trigger) (c : Conn) : Prop where
  stream : c.received = c.taken ++ c.unread
  marked : c.urgent ≠ .clear → 0 < c.alarms
  ended : c.closed = true → c.ending ≠ .going ∨ t.tolerated < c.alarms
  drained : c.closed = true → c.unread = [] ∨ 0 < c.alarms

/-- What still holds of a connection when `lt` comes to its event. -/
def Item.Fresh (x : Item) (c : Conn) : Prop :=
  match x with
  | .listen => True
  | .input _ => c.Readable
  | .urgent _ => c.urgent ≠ .clear ∧ (c.urgent = .announced → 1 < c.alarms)

structure Inv (t : Trigger) (s : Server) : Prop where
  conns : ∀ i, (s.conn i).Good t
  known : ∀ x ∈ s.batch, ∀ i, x.source = some i → i < s.accepted
  accepted_le : s.accepted ≤ s.arrived
  nodup : (s.batch.map Item.source).Nodup
  alarmed : ∀ i, .urgent i ∈ s.batch → 0 < (s.conn i).alarms
  fresh : t = .level → ∀ x ∈ s.batch, ∀ i, x.source = some i → x.Fresh (s.conn i)
  queued : t = .edge → ∀ i < s.accepted, (s.conn i).closed = false → (s.conn i).Readable →
    (s.conn i).queued = true ∨ .input i ∈ s.batch

namespace Conn

theorem not_readable : ¬ c.Readable ↔ c.unread = [] ∧ c.ending = .going := by
  rw [Readable, not_or, not_not, not_not]

theorem closeIf_false (c : Conn) : c.closeIf false = c := by
  rw [closeIf, Bool.or_false]

theorem closeIf_true (c : Conn) : c.closeIf true = { c with closed := true } := by
  rw [closeIf, Bool.or_true]

theorem good_fresh : fresh.Good t :=
  ⟨rfl, fun h => absurd rfl h, fun h => absurd h Bool.false_ne_true,
    fun h => absurd h Bool.false_ne_true⟩

theorem Good.peer (h : c.Good t) (ho : c.closed = false) (hp : c.Peer c') : c'.Good t := by
  have hopen {p : Prop} : c.closed = true → p := fun hc => absurd (ho ▸ hc) Bool.false_ne_true
  cases hp with
  | arrive bs => exact ⟨by
      show c.received ++ bs = c.taken ++ (c.unread ++ bs)
      rw [h.stream, List.append_assoc], h.marked, hopen, hopen⟩
  | announce hsub => exact ⟨rfl, fun _ => Nat.succ_pos _, hopen, hopen⟩
  | alarm hu =>
    exact ⟨h.stream, fun _ => h.marked (hu ▸ (by decide)), hopen, hopen⟩
  | finish he => exact ⟨h.stream, h.marked, hopen, hopen⟩

theorem Good.close (h : c.Good t) (h1 : c.ending ≠ .going ∨ t.tolerated < c.alarms)
    (h2 : c.unread = [] ∨ 0 < c.alarms) : (c.closeIf true).Good t := by
  rw [closeIf_true]
  exact ⟨h.stream, h.marked, fun _ => h1, fun _ => h2⟩

end Conn

theorem Recv.good (h : c.Good t) (hr : Recv c o c') : c'.Good t := by
  cases hr with
  | @bytes n u ho h0 hn hlen hu =>
    have hopen {p : Prop} : c.closed = true → p := fun hc => absurd (ho ▸ hc) Bool.false_ne_true
    refine ⟨?_, fun hne => h.marked ?_, hopen, hopen⟩
    · show c.received = c.taken ++ c.unread.take n ++ c.unread.drop n
      rw [List.append_assoc, List.take_append_drop]
      exact h.stream
    · rcases hu with rfl | ⟨hp, -⟩
      · exact hne
      · rw [hp]
        decide
  | zero | again | reset | closed => exact h

theorem RecvOob.good (h : c.Good t) (hr : RecvOob c o c') : c'.Good t := by
  cases hr with
  | byte ho hu he => exact ⟨h.stream, fun hne => absurd rfl hne, h.ended, h.drained⟩
  | zero | again | clear | reset | closed => exact h

/-- Where `recv` does not return bytes, the connection is as before. -/
theorem Item.Recv.unchanged (hr : x.Recv c o c') (ho : o ≠ .bytes) : c' = c := by
  cases x with
  | listen => exact hr.elim
  | input i => cases hr with
    | bytes => exact absurd rfl ho
    | zero | again | reset | closed => rfl
  | urgent i => cases hr with
    | byte => exact absurd rfl ho
    | zero | again | clear | reset | closed => rfl

theorem Recv.good_handled (h : c.Good t) (hr : Recv c o c')
    (hf : t = .level → Item.Fresh (.input i) c) :
    (c'.closeIf (t.handle (.input i) rest o).1).Good t := by
  have hgood := hr.good h
  cases hr with
  | bytes => cases t <;> exact (Conn.closeIf_false _).symm ▸ hgood
  | zero ho hu he =>
    have hclose := h.close (.inl (he ▸ by decide)) (.inl hu)
    cases t <;> exact hclose
  | again ho hu he =>
    cases t with
    | level => exact absurd (hf rfl) (Conn.not_readable.2 ⟨hu, he⟩)
    | edge => exact (Conn.closeIf_false _).symm ▸ hgood
  | reset ho hu he =>
    have hclose := h.close (.inl (he ▸ by decide)) (.inl hu)
    cases t <;> exact hclose
  | closed hc =>
    have hclose := h.close (h.ended hc) (h.drained hc)
    cases t <;> exact hclose

theorem RecvOob.good_handled (h : c.Good t) (hr : RecvOob c o c') (ha : 0 < c.alarms)
    (hf : t = .level → Item.Fresh (.urgent i) c) :
    (c'.closeIf (t.handle (.urgent i) rest o).1).Good t := by
  have hgood := hr.good h
  cases hr with
  | byte => cases t <;> exact (Conn.closeIf_false _).symm ▸ hgood
  | zero ho hu he =>
    have hclose := h.close (.inl (he ▸ by decide)) (.inr ha)
    cases t <;> exact hclose
  | again ho hu he =>
    cases t with
    | level => exact h.close (.inr ((hf rfl).2 hu)) (.inr ha)
    | edge => exact (Conn.closeIf_false _).symm ▸ hgood
  | clear ho hu =>
    cases t with
    | level => exact absurd hu (hf rfl).1
    | edge => exact h.close (.inr ha) (.inr ha)
  | reset ho he =>
    have hclose := h.close (.inl (he ▸ by decide)) (.inr ha)
    cases t <;> exact hclose
  | closed hc =>
    have hclose := h.close (h.ended hc) (h.drained hc)
    cases t <;> exact hclose

theorem inv_start : Inv t .start where
  conns := fun _ => Conn.good_fresh
  known := fun _ hx => absurd hx List.not_mem_nil
  accepted_le := Nat.le_refl 0
  nodup := List.nodup_nil
  alarmed := fun _ hx => absurd hx List.not_mem_nil
  fresh := fun _ _ hx => absurd hx List.not_mem_nil
  queued := fun _ i hi => absurd hi (Nat.not_lt_zero i)

/-! A peer's step leaves what the server knows of the connection. -/

theorem Conn.Peer.queued (hp : c.Peer c') : c'.queued = true := by
  cases hp <;> rfl

theorem Conn.Peer.alarms_le (hp : c.Peer c') : c.alarms ≤ c'.alarms := by
  cases hp with
  | announce => exact Nat.le_succ _
  | arrive | alarm | finish => exact Nat.le_refl _

theorem Conn.Peer.fresh (hp : c.Peer c') (hg : c.Good t) (hf : x.Fresh c) : x.Fresh c' := by
  cases x with
  | listen => exact hf
  | input i => cases hp with
    | arrive bs =>
      refine hf.imp (fun hne hnil => hne ?_) id
      exact (List.append_eq_nil_iff.1 hnil).1
    | announce hsub => exact hf.imp (fun hne hnil => hne (List.sublist_nil.1 (hnil ▸ hsub))) id
    | alarm => exact hf
    | finish he => exact .inr he
  | urgent i => cases hp with
    | announce =>
      exact ⟨fun h => Urgent.noConfusion h, fun _ => Nat.succ_lt_succ (hg.marked hf.1)⟩
    | alarm => exact ⟨fun h => Urgent.noConfusion h, fun h => Urgent.noConfusion h⟩
    | arrive | finish => exact hf

/-! And a call of `recv` leaves what the peer has done. -/

/-- What a connection owes to its peer alone. -/
def Conn.history (c : Conn) : List UInt8 × Ending × ℕ := (c.received, c.ending, c.alarms)

theorem Item.Recv.history (hr : x.Recv c o c') : c'.history = c.history := by
  by_cases ho : o = .bytes
  · subst ho
    cases x with
    | listen => exact hr.elim
    | input i => cases hr; rfl
    | urgent i => cases hr; rfl
  · rw [hr.unchanged ho]

theorem Item.Recv.queued (hr : x.Recv c o c') : c'.queued = c.queued := by
  by_cases ho : o = .bytes
  · subst ho
    cases x with
    | listen => exact hr.elim
    | input i => cases hr; rfl
    | urgent i => cases hr; rfl
  · rw [hr.unchanged ho]

theorem Item.Recv.closed (hr : x.Recv c o c') : c'.closed = c.closed := by
  by_cases ho : o = .bytes
  · subst ho
    cases x with
    | listen => exact hr.elim
    | input i => cases hr; rfl
    | urgent i => cases hr; rfl
  · rw [hr.unchanged ho]

/-- `recv` makes nothing readable. -/
theorem Item.Recv.readable (hr : x.Recv c o c') (h : c'.Readable) : c.Readable := by
  by_cases ho : o = .bytes
  · subst ho
    cases x with
    | listen => exact hr.elim
    | input i => cases hr with
      | bytes _ h0 _ hlen => exact .inl (List.ne_nil_of_length_pos (h0.trans_le hlen))
    | urgent i => cases hr with
      | byte => exact h
  · rwa [hr.unchanged ho] at h

theorem lt_sublist (x : Item) (rest : List Item) (o : Outcome) : (lt x rest o).2.Sublist rest := by
  cases o with
  | bytes => exact .refl rest
  | zero | again | error => cases x with
    | input i => exact List.nil_sublist rest
    | listen | urgent => exact .refl rest

theorem sublist_et (x : Item) (rest : List Item) (o : Outcome) : rest.Sublist (et x rest o).2 := by
  cases o with
  | bytes | zero => exact List.sublist_cons_self x rest
  | again | error => exact .refl rest

theorem handle_sublist (t : Trigger) (x : Item) (rest : List Item) (o : Outcome) :
    (t.handle x rest o).2.Sublist (x :: rest) := by
  cases t with
  | level => exact (lt_sublist x rest o).trans (List.sublist_cons_self x rest)
  | edge => cases o with
    | bytes | zero => exact .refl _
    | again | error => exact List.sublist_cons_self x rest

/-- A report changes what is queued and nothing else. -/
theorem Server.waited_conn (s : Server) (items : List Item) (i : ℕ) :
    ∃ q, (s.waited items).conn i = { s.conn i with queued := q } := by
  by_cases hi : some i ∈ items.map Item.source
  · exact ⟨false, if_pos hi⟩
  · exact ⟨(s.conn i).queued, if_neg hi⟩

namespace Inv

theorem peers (h : Inv t s) (hp : Peers s s') : Inv t s' := by
  cases hp with
  | connect =>
    have hold {i : ℕ} (hi : i < s.accepted) : s.connect.conn i = s.conn i :=
      Function.update_of_ne (hi.trans_le h.accepted_le).ne _ _
    refine ⟨?_, h.known, h.accepted_le.trans (Nat.le_succ _), h.nodup, ?_, ?_, ?_⟩
    · exact (Function.forall_update_iff s.conn fun _ c => c.Good t).2
        ⟨Conn.good_fresh, fun i _ => h.conns i⟩
    · intro i hi
      rw [hold (h.known _ hi i rfl)]
      exact h.alarmed i hi
    · intro ht x hx i hi
      rw [hold (h.known x hx i hi)]
      exact h.fresh ht x hx i hi
    · intro ht i hi
      rw [hold hi]
      exact h.queued ht i hi
  | @conn i c hi ho he hp =>
    refine ⟨?_, h.known, h.accepted_le, h.nodup, ?_, ?_, ?_⟩
    · exact (Function.forall_update_iff s.conn fun _ c => c.Good t).2
        ⟨(h.conns i).peer ho hp, fun j _ => h.conns j⟩
    · refine (Function.forall_update_iff s.conn fun j c => .urgent j ∈ s.batch → 0 < c.alarms).2
        ⟨fun hmem => (h.alarmed i hmem).trans_le hp.alarms_le, fun j _ => h.alarmed j⟩
    · intro ht x hx
      refine (Function.forall_update_iff s.conn fun j c => x.source = some j → x.Fresh c).2
        ⟨fun hsrc => hp.fresh (h.conns i) (h.fresh ht x hx i hsrc), fun j _ => h.fresh ht x hx j⟩
    · intro ht
      refine (Function.forall_update_iff s.conn fun j c => j < s.accepted → c.closed = false →
        c.Readable → c.queued = true ∨ .input j ∈ s.batch).2
        ⟨fun _ _ _ => .inl hp.queued, fun j _ => h.queued ht j⟩

theorem wait {items : List Item} (h : Inv t s) (hb : s.batch = [])
    (hnd : (items.map Item.source).Nodup) (hr : ∀ x ∈ items, s.Reports t x) :
    Inv t (s.waited items) := by
  refine ⟨?_, ?_, h.accepted_le, hnd, ?_, ?_, ?_⟩
  · intro i
    obtain ⟨q, hq⟩ := s.waited_conn items i
    rw [hq]
    exact ⟨(h.conns i).stream, (h.conns i).marked, (h.conns i).ended, (h.conns i).drained⟩
  · intro x hx i hi
    cases x with
    | listen => cases hi
    | input j => cases hi; exact (hr _ hx).1.1
    | urgent j => cases hi; exact (hr _ hx).1.1
  · intro i hi
    obtain ⟨q, hq⟩ := s.waited_conn items i
    rw [hq]
    exact (h.conns i).marked ((hr _ hi).2.2 ▸ by decide)
  · intro _ x hx i hi
    obtain ⟨q, hq⟩ := s.waited_conn items i
    rw [hq]
    cases x with
    | listen => cases hi
    | input j => cases hi; exact (hr _ hx).2
    | urgent j =>
      cases hi
      exact ⟨(hr _ hx).2.2 ▸ by decide, fun hu => absurd ((hr _ hx).2.2.symm.trans hu) (by decide)⟩
  · intro ht i hi ho hread
    obtain ⟨q, hq⟩ := s.waited_conn items i
    rw [hq] at ho hread
    by_cases hmem : some i ∈ items.map Item.source
    · right
      obtain ⟨x, hx, hsrc⟩ := List.mem_map.1 hmem
      cases x with
      | listen => cases hsrc
      | input j => cases hsrc; exact hx
      | urgent j => cases hsrc; exact absurd hread (hr _ hx).2.1
    · left
      have hqueued := h.queued ht i hi ho hread
      rw [hb] at hqueued
      show (ite _ _ _ : Conn).queued = true
      rw [if_neg hmem]
      exact hqueued.resolve_right List.not_mem_nil

/-- The listening socket's event is done with. -/
theorem listened (h : Inv t s) (hb : s.batch = .listen :: rest) :
    Inv t { s with batch := rest } := by
  have hmem {x : Item} (hx : x ∈ rest) : x ∈ s.batch := hb ▸ List.mem_cons_of_mem _ hx
  refine ⟨h.conns, fun x hx => h.known x (hmem hx), h.accepted_le, ?_,
    fun i hi => h.alarmed i (hmem hi), fun ht x hx => h.fresh ht x (hmem hx), ?_⟩
  · have hnd := h.nodup
    rw [hb, List.map_cons] at hnd
    exact hnd.of_cons
  · intro ht i hi ho hread
    have hor := h.queued ht i hi ho hread
    rw [hb] at hor
    exact hor.imp_right fun hx => (List.mem_cons.1 hx).resolve_left Item.noConfusion

theorem accept (h : Inv t s) (hb : s.batch = .listen :: rest) (hlt : s.accepted < s.arrived) :
    Inv t (s.accept rest) := by
  have h1 := h.listened hb
  have hold {i : ℕ} (hi : i < s.accepted) : (s.accept rest).conn i = s.conn i :=
    Function.update_of_ne hi.ne _ _
  refine ⟨?_, fun x hx i hi => (h1.known x hx i hi).trans (Nat.lt_succ_self _), hlt, h1.nodup,
    ?_, ?_, ?_⟩
  · have hgood := h.conns s.accepted
    exact (Function.forall_update_iff s.conn fun _ c => c.Good t).2
      ⟨⟨hgood.stream, hgood.marked, hgood.ended, hgood.drained⟩, fun i _ => h.conns i⟩
  · intro i hi
    rw [hold (h1.known _ hi i rfl)]
    exact h1.alarmed i hi
  · intro ht x hx i hi
    rw [hold (h1.known x hx i hi)]
    exact h1.fresh ht x hx i hi
  · intro ht
    refine (Function.forall_update_iff s.conn fun i c => i < s.accepted + 1 → c.closed = false →
      c.Readable → c.queued = true ∨ .input i ∈ rest).2 ⟨fun _ _ hread => .inl ?_, ?_⟩
    · exact decide_eq_true (Or.inl hread)
    · intro i hne hi
      exact h1.queued ht i (lt_of_le_of_ne (Nat.le_of_lt_succ hi) hne)

theorem recv (h : Inv t s) (hb : s.batch = x :: rest) (hx : x.source = some i)
    (hr : x.Recv (s.conn i) o c) : Inv t (s.handled t x rest i o c) := by
  have hmem : x ∈ s.batch := hb ▸ List.mem_cons_self
  have hsub := handle_sublist t x rest o
  have hnd : ((x :: rest).map Item.source).Nodup := hb ▸ h.nodup
  have hin {y : Item} (hy : y ∈ (t.handle x rest o).2) : y ∈ s.batch := hb ▸ hsub.subset hy
  refine ⟨?_, fun y hy => h.known y (hin hy), h.accepted_le, hnd.sublist (hsub.map _), ?_, ?_, ?_⟩
  · refine (Function.forall_update_iff s.conn fun _ c => c.Good t).2 ⟨?_, fun j _ => h.conns j⟩
    have hfresh (ht : t = .level) : x.Fresh (s.conn i) := h.fresh ht x hmem i hx
    cases x with
    | listen => exact hr.elim
    | input j => exact Recv.good_handled (h.conns i) hr hfresh
    | urgent j =>
      cases hx
      exact RecvOob.good_handled (h.conns i) hr (h.alarmed i hmem) hfresh
  · have halarms : c.alarms = (s.conn i).alarms := congrArg (fun p => p.2.2) hr.history
    refine (Function.forall_update_iff s.conn fun j c => .urgent j ∈ (t.handle x rest o).2 →
      0 < c.alarms).2 ⟨fun hi => ?_, fun j _ hj => h.alarmed j (hin hj)⟩
    exact (h.alarmed i (hin hi)).trans_eq halarms.symm
  · -- what is left of the batch is of other connections
    rintro rfl y hy
    have hy' : y ∈ rest := (lt_sublist x rest o).subset hy
    refine (Function.forall_update_iff s.conn fun j c => y.source = some j → y.Fresh c).2
      ⟨fun hyi => ?_, fun j _ => h.fresh rfl y (hin hy) j⟩
    rw [List.map_cons, List.nodup_cons] at hnd
    exact absurd (List.mem_map.2 ⟨y, hy', hyi.trans hx.symm⟩) hnd.1
  · rintro rfl
    have hrest {y : Item} (hy : y ∈ x :: rest) (hne : y ≠ x) : y ∈ (et x rest o).2 :=
      (sublist_et x rest o).subset ((List.mem_cons.1 hy).resolve_left hne)
    refine (Function.forall_update_iff s.conn fun j c => j < s.accepted → c.closed = false →
      c.Readable → c.queued = true ∨ .input j ∈ (et x rest o).2).2 ⟨?_, ?_⟩
    · intro hi ho hread
      obtain ⟨hc, hb'⟩ := Bool.or_eq_false_iff.1 ho
      have hqueued := h.queued rfl i hi (hr.closed ▸ hc) (hr.readable hread)
      rw [hb, ← hr.queued] at hqueued
      refine hqueued.imp_right fun hinput => ?_
      by_cases hxi : Item.input i = x
      · subst hxi
        cases hr with
        | bytes => exact List.mem_cons_self
        | again _ hu he => exact absurd hread (Conn.not_readable.2 ⟨hu, he⟩)
        | zero | reset | closed => cases hb'
      · exact hrest hinput hxi
    · intro j hj hi ho hread
      have hqueued := h.queued rfl j hi ho hread
      rw [hb] at hqueued
      refine hqueued.imp_right fun hinput => hrest hinput fun heq => hj ?_
      rw [← heq] at hx
      exact Option.some.inj hx

theorem serve (h : Inv t s) (hs : Serve t s s') : Inv t s' := by
  cases hs with
  | wait hb _ hnd hr => exact h.wait hb hnd hr
  | accept hb hlt => exact h.accept hb hlt
  | acceptFails hb _ => exact h.listened hb
  | recv hb hx hr => exact h.recv hb hx hr

theorem step {a : Party} (h : Inv t s) (hs : Step t s a s') : Inv t s' := by
  cases a with
  | peers => exact h.peers hs
  | server => exact h.serve hs

end Inv

theorem inv_run {as : List Party} (h : Run (Step t) .start as s) : Inv t s :=
  h.invariant (fun _ _ _ => Inv.step) inv_start

/-- At any time, what has been read of a connection is the beginning of what has arrived. The server
closes it when the peer has ended it, or after urgent bytes; without these, it has read everything
by then. -/
theorem reads_in_order {as : List Party} (h : Run (Step t) .start as s) (i : ℕ) :
    (s.conn i).taken <+: (s.conn i).received ∧
      ((s.conn i).closed = true →
        ((s.conn i).ending ≠ .going ∨ t.tolerated < (s.conn i).alarms) ∧
          ((s.conn i).alarms = 0 → (s.conn i).taken = (s.conn i).received)) := by
  have hgood := (inv_run h).conns i
  refine ⟨⟨_, hgood.stream.symm⟩, fun hc => ⟨hgood.ended hc, fun h0 => ?_⟩⟩
  have hnil := (hgood.drained hc).resolve_right h0.not_gt
  rw [hgood.stream, hnil, List.append_nil]

theorem reads_in_order_oneServed :
    (oneServed.conn 0).closed = true ∧ (oneServed.conn 0).taken = (oneServed.conn 0).received ∧
      (oneServed.conn 0).taken = [104, 105] :=
  ⟨rfl, ((reads_in_order oneServed_run 0).2 rfl).2 rfl, rfl⟩

end SocketTest.Multiplexing
