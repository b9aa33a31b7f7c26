import Mathlib.Data.Int.Range
import SocketTest.Lib.CString
import SocketTest.Lib.Memory

/-!
# The chat server

The loop of `Chat/chat_server.cc`: `poll` over the table `fds`, whose first entry is the listening
socket, and a scan of the table with one branch for each kind of event. `scan` is one round of the inner
loop at the place `i`; a round makes at most one system call whose answer matters. `poll` and the loop
go over `USER_LIMIT + 1` entries and the array has `USER_LIMIT`: what stands behind it is treated as
one more entry, and the access is recorded in `faults`.
-/

namespace SocketTest.ChatServer

open SocketTest.Lib

def USER_LIMIT : ℤ := 5
def BUFFER_SIZE : ℕ := 64

def POLLIN : UInt16 := 0x001
def POLLOUT : UInt16 := 0x004
def POLLERR : UInt16 := 0x008
def POLLHUP : UInt16 := 0x010
def POLLNVAL : UInt16 := 0x020
def POLLRDHUP : UInt16 := 0x2000

structure PollFd where
  fd : ℤ
  events : UInt16
  revents : UInt16
  deriving DecidableEq, Repr

/-- `client_data`. `write_buf` points to the `buf` of the record of a descriptor, or is null. -/
structure ClientData where
  writeBuf : Option ℤ
  buf : Buf

/-- What has happened to a descriptor, in order. A client that is refused is told so and closed. -/
inductive Happening
  | accepted (fd : ℤ)
  | refused (fd : ℤ)
  | closed (fd : ℤ)
  | received (fd : ℤ) (message : List UInt8)
  | sent (fd : ℤ) (message : List UInt8)
  deriving DecidableEq, Repr

structure Server where
  users : ℤ → ClientData
  fds : ℤ → PollFd
  userCounter : ℤ
  listenfd : ℤ
  /-- the place of the scan -/
  i : ℤ
  log : List Happening
  faults : List Fault

/-- What `recv` returns: bytes, 0, or an error, which may be `EAGAIN`. -/
inductive Received
  | data (message : List UInt8)
  | eof
  | error (again : Bool)
  deriving DecidableEq, Repr

/-- The answers to the system calls of a round: of `accept`, of `recv` and the number of bytes that
`send` takes. -/
structure Replies where
  connfd : ℤ
  received : Received
  taken : ℕ
  deriving DecidableEq, Repr

/-- A bit of an event mask. -/
def has (mask bit : UInt16) : Bool := mask &&& bit ≠ 0

/-- One bit. -/
def IsBit (bit : UInt16) : Prop := ∃ n < 16, bit = UInt16.ofBitVec (BitVec.twoPow 16 n)

section Masks

variable {bit mask asked : UInt16}

theorem has_twoPow {n : ℕ} (hn : n < 16) (mask : UInt16) :
    has mask (UInt16.ofBitVec (BitVec.twoPow 16 n)) = mask.toBitVec.getLsbD n := by
  have hand : mask &&& UInt16.ofBitVec (BitVec.twoPow 16 n) =
      if mask.toBitVec.getLsbD n then UInt16.ofBitVec (BitVec.twoPow 16 n) else 0 := by
    rw [← UInt16.toBitVec_inj, UInt16.toBitVec_and, UInt16.toBitVec_ofBitVec, BitVec.and_twoPow]
    split_ifs <;> rfl
  have hne : UInt16.ofBitVec (BitVec.twoPow 16 n) ≠ 0 := by
    interval_cases n <;> decide
  unfold has
  rw [hand]
  by_cases hb : mask.toBitVec.getLsbD n <;> simp [hb, hne]

theorem has_zero (bit : UInt16) : has 0 bit = false := by simp [has]

theorem has_or (hb : IsBit bit) (a b : UInt16) : has (a ||| b) bit = (has a bit || has b bit) := by
  obtain ⟨n, hn, rfl⟩ := hb
  simp [has_twoPow hn]

theorem has_and (hb : IsBit bit) (a b : UInt16) : has (a &&& b) bit = (has a bit && has b bit) := by
  obtain ⟨n, hn, rfl⟩ := hb
  simp [has_twoPow hn]

theorem has_not (hb : IsBit bit) (a : UInt16) : has (~~~a) bit = !has a bit := by
  obtain ⟨n, hn, rfl⟩ := hb
  simp [has_twoPow hn, hn]

/-- What is returned was asked for. -/
theorem has_asked (hb : IsBit bit) (h : mask &&& ~~~asked = 0) (hm : has mask bit) :
    has asked bit := by
  have hbit : has (mask &&& ~~~asked) bit = false := by rw [h, has_zero]
  rw [has_and hb, has_not hb, hm] at hbit
  simpa using hbit

theorem isBit_POLLOUT : IsBit POLLOUT := ⟨2, by decide, rfl⟩

theorem isBit_POLLRDHUP : IsBit POLLRDHUP := ⟨13, by decide, by decide⟩

end Masks

namespace Server

/-- Before the first `poll`; `raw` is what the array and the memory behind it hold. -/
def start (users : ℤ → ClientData) (raw : ℤ → PollFd) (listenfd : ℤ) : Server where
  users := users
  fds := fun k =>
    if k = 0 then ⟨listenfd, POLLIN ||| POLLERR, 0⟩
    else if 1 ≤ k ∧ k < USER_LIMIT then { raw k with fd := -1, events := 0 }
    else raw k
  userCounter := 0
  listenfd := listenfd
  i := USER_LIMIT + 1
  log := []
  faults := []

/-- An access to `fds[k]`. -/
def access (s : Server) (k : ℤ) : Server :=
  if 0 ≤ k ∧ k < USER_LIMIT then s else { s with faults := s.faults ++ [.outOfBounds k] }

/-- `fds[k] = e`. -/
def setFd (s : Server) (k : ℤ) (e : PollFd) : Server :=
  { s.access k with fds := Function.update s.fds k e }

/-- `users[fd] = data`. -/
def setUser (s : Server) (fd : ℤ) (data : ClientData) : Server :=
  { s with users := Function.update s.users fd data }

def note (s : Server) (h : Happening) : Server := { s with log := s.log ++ [h] }

/-- The branch of the listening socket. -/
def acceptClient (s : Server) (connfd : ℤ) : Server :=
  if connfd < 0 then s
  else if USER_LIMIT ≤ s.userCounter then s.note (.refused connfd)
  else
    { (s.setFd (s.userCounter + 1) ⟨connfd, POLLIN ||| POLLRDHUP ||| POLLERR, 0⟩).note
        (.accepted connfd) with userCounter := s.userCounter + 1 }

/-- The client at the place of the scan is closed and the last one is put there, its record on that of
the client closed. -/
def remove (s : Server) : Server :=
  let fd := (s.fds s.i).fd
  let last := s.fds s.userCounter
  { (((s.access s.userCounter).setUser fd (s.users last.fd)).setFd s.i last).note (.closed fd) with
    i := s.i - 1
    userCounter := s.userCounter - 1 }

/-- A round of the broadcast loop: the client at `j` is to send what `connfd` received. -/
def offer (s : Server) (connfd j : ℤ) : Server :=
  let e := s.fds j
  if e.fd = connfd then s.access j
  else
    (s.setFd j { e with events := (e.events ||| ~~~POLLIN) ||| POLLOUT }).setUser e.fd
      { s.users e.fd with writeBuf := some connfd }

/-- `for(j = 1; j < user_counter; ++j)`. -/
def broadcast (s : Server) (connfd : ℤ) : Server :=
  (List.range (s.userCounter - 1).toNat).foldl (fun s (k : ℕ) => s.offer connfd (k + 1)) s

/-- The `buf` of a client with these bytes received into it, or none. -/
def setBuf (s : Server) (fd : ℤ) (message : List UInt8) : Server :=
  s.setUser fd { s.users fd with buf := strncpy (s.users fd).buf 0 BUFFER_SIZE message }

/-- The branch of `POLLIN`. -/
def receive (s : Server) (r : Received) : Server :=
  let connfd := (s.fds s.i).fd
  match r with
  | .data m => ((s.setBuf connfd m).note (.received connfd m)).broadcast connfd
  | .eof => s.setBuf connfd []
  | .error true => s.setBuf connfd []
  | .error false => (s.setBuf connfd []).remove

/-- The branch of `POLLOUT`. -/
def sendTo (s : Server) (taken : ℕ) : Server :=
  let e := s.fds s.i
  match (s.users e.fd).writeBuf with
  | none => s
  | some owner =>
    let text := cstring BUFFER_SIZE (s.users owner).buf 0
    ((s.note (.sent e.fd (text.take taken))).setUser e.fd { s.users e.fd with writeBuf := none }).setFd
      s.i { e with events := (e.events ||| ~~~POLLOUT) ||| POLLIN }

/-- The branch that the entry at the place of the scan calls for. -/
def dispatch (s : Server) (r : Replies) : Server :=
  let e := s.fds s.i
  if e.fd = s.listenfd ∧ has e.revents POLLIN then s.acceptClient r.connfd
  else if has e.revents POLLERR then s
  else if has e.revents POLLRDHUP then s.remove
  else if has e.revents POLLIN then s.receive r.received
  else if has e.revents POLLOUT then s.sendTo r.taken
  else s

/-- A round of the scan. -/
def scan (s : Server) (r : Replies) : Server :=
  let t := (s.access s.i).dispatch r
  { t with i := t.i + 1 }

/-- `poll` has filled in the events that it returns. -/
def polled (s : Server) (revents : ℤ → UInt16) : Server :=
  { s.access USER_LIMIT with
    fds := fun k => if 0 ≤ k ∧ k ≤ USER_LIMIT then { s.fds k with revents := revents k } else s.fds k
    i := 0 }

end Server

/-- The clients that have been accepted and not been closed. -/
def connected (log : List Happening) : List ℤ :=
  log.foldl (fun fds h =>
    match h with
    | .accepted fd => fds ++ [fd]
    | .closed fd => fds.erase fd
    | _ => fds) []

@[simp] theorem connected_nil : connected [] = [] := rfl

@[simp] theorem connected_accepted (log : List Happening) (fd : ℤ) :
    connected (log ++ [.accepted fd]) = connected log ++ [fd] := by simp [connected]

@[simp] theorem connected_closed (log : List Happening) (fd : ℤ) :
    connected (log ++ [.closed fd]) = (connected log).erase fd := by simp [connected]

@[simp] theorem connected_refused (log : List Happening) (fd : ℤ) :
    connected (log ++ [.refused fd]) = connected log := by simp [connected]

@[simp] theorem connected_received (log : List Happening) (fd : ℤ) (m : List UInt8) :
    connected (log ++ [.received fd m]) = connected log := by simp [connected]

@[simp] theorem connected_sent (log : List Happening) (fd : ℤ) (m : List UInt8) :
    connected (log ++ [.sent fd m]) = connected log := by simp [connected]

namespace Server

/-- `poll` ignores an entry without a descriptor and reports events that were asked for, or one of the
three that it always reports. -/
def Polls (s : Server) (revents : ℤ → UInt16) : Prop :=
  ∀ k, 0 ≤ k → k ≤ USER_LIMIT →
    if (s.fds k).fd < 0 then revents k = 0
    else revents k &&& ~~~((s.fds k).events ||| (POLLERR ||| POLLHUP ||| POLLNVAL)) = 0

/-- `accept` returns a descriptor that is not open, `recv` some bytes that it has room for. -/
def Answers (s : Server) (r : Replies) : Prop :=
  (0 ≤ r.connfd → r.connfd ≠ s.listenfd ∧ r.connfd ∉ connected s.log) ∧
    ∀ m, r.received = .data m → m ≠ [] ∧ m.length ≤ BUFFER_SIZE - 1

end Server

/-- `poll` returns, or the scan makes a round. -/
inductive Act
  | poll (revents : ℤ → UInt16)
  | scan (r : Replies)

inductive Step : Server → Act → Server → Prop
  | poll {s : Server} {revents : ℤ → UInt16} : s.i = USER_LIMIT + 1 → s.Polls revents →
      Step s (.poll revents) (s.polled revents)
  | scan {s : Server} {r : Replies} : s.i ≤ USER_LIMIT → s.Answers r → Step s (.scan r) (s.scan r)

namespace Server

instance decidablePolls (s : Server) (revents : ℤ → UInt16) : Decidable (s.Polls revents) :=
  Int.decidableLELE (fun k => if (s.fds k).fd < 0 then revents k = 0
    else revents k &&& ~~~((s.fds k).events ||| (POLLERR ||| POLLHUP ||| POLLNVAL)) = 0) 0 USER_LIMIT

instance decidableAnswers (s : Server) (r : Replies) : Decidable (s.Answers r) :=
  match r with
  | ⟨connfd, .data m, taken⟩ =>
    decidable_of_iff ((0 ≤ connfd → connfd ≠ s.listenfd ∧ connfd ∉ connected s.log) ∧
        m ≠ [] ∧ m.length ≤ BUFFER_SIZE - 1)
      ⟨fun h => ⟨h.1, fun _ he => by cases he; exact h.2⟩, fun h => ⟨h.1, h.2 m rfl⟩⟩
  | ⟨connfd, .eof, taken⟩ | ⟨connfd, .error again, taken⟩ =>
    decidable_of_iff (0 ≤ connfd → connfd ≠ s.listenfd ∧ connfd ∉ connected s.log)
      ⟨fun h => ⟨h, fun _ he => by cases he⟩, fun h => h.1⟩

def exec (s : Server) : Act → Server
  | .poll revents => s.polled revents
  | .scan r => s.scan r

/-- The step is one that the kernel allows. -/
def allows (s : Server) : Act → Bool
  | .poll revents => s.i = USER_LIMIT + 1 ∧ s.Polls revents
  | .scan r => s.i ≤ USER_LIMIT ∧ s.Answers r

theorem step_exec (s : Server) (a : Act) (h : s.allows a = true) : Step s a (s.exec a) := by
  cases a with
  | poll revents =>
    obtain ⟨hi, hp⟩ := of_decide_eq_true h
    exact .poll hi hp
  | scan r =>
    obtain ⟨hi, ha⟩ := of_decide_eq_true h
    exact .scan hi ha

end Server

namespace Server

/-! ## What the pieces leave alone -/

variable {s : Server} {k connfd : ℤ}

@[simp] theorem access_fds (s : Server) (k : ℤ) : (s.access k).fds = s.fds := by
  unfold access; split_ifs <;> rfl

@[simp] theorem access_users (s : Server) (k : ℤ) : (s.access k).users = s.users := by
  unfold access; split_ifs <;> rfl

@[simp] theorem access_userCounter (s : Server) (k : ℤ) :
    (s.access k).userCounter = s.userCounter := by
  unfold access; split_ifs <;> rfl

@[simp] theorem access_listenfd (s : Server) (k : ℤ) : (s.access k).listenfd = s.listenfd := by
  unfold access; split_ifs <;> rfl

@[simp] theorem access_i (s : Server) (k : ℤ) : (s.access k).i = s.i := by
  unfold access; split_ifs <;> rfl

@[simp] theorem access_log (s : Server) (k : ℤ) : (s.access k).log = s.log := by
  unfold access; split_ifs <;> rfl

@[simp] theorem setFd_fds (s : Server) (k : ℤ) (e : PollFd) :
    (s.setFd k e).fds = Function.update s.fds k e := rfl

@[simp] theorem setFd_users (s : Server) (k : ℤ) (e : PollFd) : (s.setFd k e).users = s.users := by
  simp [setFd]

@[simp] theorem setFd_userCounter (s : Server) (k : ℤ) (e : PollFd) :
    (s.setFd k e).userCounter = s.userCounter := by simp [setFd]

@[simp] theorem setFd_listenfd (s : Server) (k : ℤ) (e : PollFd) :
    (s.setFd k e).listenfd = s.listenfd := by simp [setFd]

@[simp] theorem setFd_i (s : Server) (k : ℤ) (e : PollFd) : (s.setFd k e).i = s.i := by
  simp [setFd]

@[simp] theorem setFd_log (s : Server) (k : ℤ) (e : PollFd) : (s.setFd k e).log = s.log := by
  simp [setFd]

@[simp] theorem polled_fd (s : Server) (revents : ℤ → UInt16) (k : ℤ) :
    ((s.polled revents).fds k).fd = (s.fds k).fd := by
  show (if 0 ≤ k ∧ k ≤ USER_LIMIT then _ else s.fds k : PollFd).fd = _
  split_ifs <;> rfl

@[simp] theorem polled_events (s : Server) (revents : ℤ → UInt16) (k : ℤ) :
    ((s.polled revents).fds k).events = (s.fds k).events := by
  show (if 0 ≤ k ∧ k ≤ USER_LIMIT then _ else s.fds k : PollFd).events = _
  split_ifs <;> rfl

theorem polled_revents (s : Server) (revents : ℤ → UInt16) {k : ℤ} (h0 : 0 ≤ k)
    (hk : k ≤ USER_LIMIT) : ((s.polled revents).fds k).revents = revents k := by
  show (if 0 ≤ k ∧ k ≤ USER_LIMIT then _ else s.fds k : PollFd).revents = _
  rw [if_pos ⟨h0, hk⟩]

@[simp] theorem polled_users (s : Server) (revents : ℤ → UInt16) :
    (s.polled revents).users = s.users := access_users s _

@[simp] theorem polled_userCounter (s : Server) (revents : ℤ → UInt16) :
    (s.polled revents).userCounter = s.userCounter := access_userCounter s _

@[simp] theorem polled_listenfd (s : Server) (revents : ℤ → UInt16) :
    (s.polled revents).listenfd = s.listenfd := access_listenfd s _

@[simp] theorem polled_log (s : Server) (revents : ℤ → UInt16) : (s.polled revents).log = s.log :=
  access_log s _

/-- A branch that adds no client and takes none away: the descriptors stay where they are, with the
events returned for them, and so does what the listening socket is asked for. -/
structure SameTable (s t : Server) : Prop where
  fd : ∀ k, (t.fds k).fd = (s.fds k).fd
  revents : ∀ k, (t.fds k).revents = (s.fds k).revents
  userCounter : t.userCounter = s.userCounter
  listenfd : t.listenfd = s.listenfd
  i : t.i = s.i

theorem SameTable.refl (s : Server) : SameTable s s := ⟨fun _ => rfl, fun _ => rfl, rfl, rfl, rfl⟩

theorem SameTable.trans {s t u : Server} (h : SameTable s t) (h' : SameTable t u) : SameTable s u :=
  ⟨fun k => (h'.fd k).trans (h.fd k), fun k => (h'.revents k).trans (h.revents k),
    h'.userCounter.trans h.userCounter, h'.listenfd.trans h.listenfd, h'.i.trans h.i⟩

theorem SameTable.of_eq {t : Server} (hfds : t.fds = s.fds) (hc : t.userCounter = s.userCounter)
    (hl : t.listenfd = s.listenfd) (hi : t.i = s.i) : SameTable s t :=
  ⟨fun k => by rw [hfds], fun k => by rw [hfds], hc, hl, hi⟩

/-- Other events asked for at one place. -/
theorem SameTable.setFd {e : PollFd} (hfd : e.fd = (s.fds k).fd)
    (hrevents : e.revents = (s.fds k).revents) : SameTable s (s.setFd k e) := by
  refine ⟨fun j => ?_, fun j => ?_, by simp, by simp, by simp⟩
  · by_cases hj : j = k
    · rw [hj, setFd_fds, Function.update_self, hfd]
    · rw [setFd_fds, Function.update_of_ne hj]
  · by_cases hj : j = k
    · rw [hj, setFd_fds, Function.update_self, hrevents]
    · rw [setFd_fds, Function.update_of_ne hj]

theorem offer_same (s : Server) (connfd k : ℤ) : SameTable s (s.offer connfd k) := by
  unfold offer
  dsimp only
  split_ifs
  · exact .of_eq (by simp) (by simp) (by simp) (by simp)
  · have hfd : SameTable s (s.setFd k { s.fds k with
        events := ((s.fds k).events ||| ~~~POLLIN) ||| POLLOUT }) := .setFd rfl rfl
    exact hfd.trans (.of_eq rfl rfl rfl rfl)

theorem offer_log (s : Server) (connfd k : ℤ) : (s.offer connfd k).log = s.log := by
  unfold offer
  dsimp only
  split_ifs
  · simp
  · simp [setUser]

theorem broadcast_same (s : Server) (connfd : ℤ) :
    SameTable s (s.broadcast connfd) ∧ (s.broadcast connfd).log = s.log := by
  unfold broadcast
  generalize (s.userCounter - 1).toNat = n
  induction n with
  | zero => exact ⟨.refl s, rfl⟩
  | succ n ih =>
    rw [List.range_succ, List.foldl_append]
    exact ⟨ih.1.trans (offer_same _ _ _), (offer_log _ _ _).trans ih.2⟩

end Server

end SocketTest.ChatServer
