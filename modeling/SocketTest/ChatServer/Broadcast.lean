import SocketTest.ChatServer.Table

/-!
# The broadcast

A message stays in the buffer of the client it came from, and the others get a pointer to it, to be
served when they can be written to. What a client is owed and what it has got is read off the log
(`Account`). `chat_broadcast` gives the runs in which nothing is lost: only the client that came last
speaks, nobody is waiting when it does, messages hold no NUL and are taken whole, and nobody leaves.
-/

namespace SocketTest.ChatServer

open SocketTest.Lib

/-- What a client is owed since it came: the messages received from others. -/
structure Account where
  joined : Bool
  owed : List (List UInt8)
  got : List (List UInt8)

namespace Account

def next (fd : ℤ) (a : Account) : Happening → Account
  | .accepted x => if x = fd then ⟨true, [], []⟩ else a
  | .closed x => if x = fd then { a with joined := false } else a
  | .received x m => if a.joined ∧ x ≠ fd then { a with owed := a.owed ++ [m] } else a
  | .sent x m => if x = fd then { a with got := a.got ++ [m] } else a
  | .refused _ => a

end Account

/-- The account of the client with this descriptor. -/
def account (log : List Happening) (fd : ℤ) : Account := log.foldl (Account.next fd) ⟨false, [], []⟩

theorem account_concat (log : List Happening) (h : Happening) (fd : ℤ) :
    account (log ++ [h]) fd = (account log fd).next fd h := by simp [account]

namespace Server

/-- The client has a pointer to a message and is to be told when it can be written to. -/
def Waits (s : Server) (fd : ℤ) : Prop :=
  (s.users fd).writeBuf ≠ none ∧
    ∃ k, 1 ≤ k ∧ k ≤ s.userCounter ∧ (s.fds k).fd = fd ∧ has (s.fds k).events POLLOUT

/-- The round is in the branch of `POLLIN`. -/
def Receives (s : Server) : Prop :=
  ¬ ((s.fds s.i).fd = s.listenfd ∧ has (s.fds s.i).revents POLLIN) ∧
    ¬ has (s.fds s.i).revents POLLERR ∧ ¬ has (s.fds s.i).revents POLLRDHUP ∧
    has (s.fds s.i).revents POLLIN

/-- The round is in the branch of `POLLOUT`. -/
def Sends (s : Server) : Prop :=
  ¬ ((s.fds s.i).fd = s.listenfd ∧ has (s.fds s.i).revents POLLIN) ∧
    ¬ has (s.fds s.i).revents POLLERR ∧ ¬ has (s.fds s.i).revents POLLRDHUP ∧
    ¬ has (s.fds s.i).revents POLLIN ∧ has (s.fds s.i).revents POLLOUT

/-- Every client has got nothing but messages it is owed, none twice, and unless it is still to be
served all of them; a round that serves a client ends its waiting. -/
structure Served (s : Server) : Prop where
  owed : ∀ fd ∈ connected s.log, (account s.log fd).got.Subperm (account s.log fd).owed ∧
    (¬ s.Waits fd → (account s.log fd).got.Perm (account s.log fd).owed)
  ends : s.Sends → ∀ r, ¬ (s.scan r).Waits (s.fds s.i).fd

/-- What a round may do without losing a message. A client is received from while nobody waits for
what it sent before; a message comes from the last client in the table while nobody waits at all, and
holds no NUL if there is anybody to send it to; `send` takes a message whole; nobody is removed. -/
structure Orderly (s : Server) (r : Replies) : Prop where
  stays : ¬ s.Removes r
  unread : s.Receives → ∀ fd ∈ connected s.log, s.Waits fd →
    (s.users fd).writeBuf ≠ some (s.fds s.i).fd
  message : s.Receives → ∀ m, r.received = .data m → s.i = s.userCounter ∧
    (1 < s.userCounter → NUL ∉ m) ∧ ∀ fd ∈ connected s.log, ¬ s.Waits fd
  whole : s.Sends → ∀ owner, (s.users (s.fds s.i).fd).writeBuf = some owner →
    (cstring BUFFER_SIZE (s.users owner).buf 0).length ≤ r.taken

instance decidableWaits (s : Server) (fd : ℤ) : Decidable (s.Waits fd) :=
  decidable_of_iff ((s.users fd).writeBuf.isSome = true ∧
      ((List.range s.userCounter.toNat).any fun k : ℕ =>
        (s.fds (k + 1)).fd = fd ∧ has (s.fds (k + 1)).events POLLOUT) = true) <| by
    unfold Waits
    rw [List.any_eq_true, Option.isSome_iff_ne_none]
    refine and_congr_right fun _ => ⟨?_, ?_⟩
    · rintro ⟨k, hk, hfd⟩
      have hk' := List.mem_range.1 hk
      exact ⟨k + 1, by omega, by omega, of_decide_eq_true hfd⟩
    · rintro ⟨k, h1, hk, hfd⟩
      have hk' : ((k - 1).toNat : ℤ) + 1 = k := by omega
      refine ⟨(k - 1).toNat, List.mem_range.2 (by omega), decide_eq_true ?_⟩
      rwa [hk']

/-- A test for `Orderly`. -/
def isOrderly (s : Server) (r : Replies) : Bool :=
  !decide (s.Removes r) &&
    (connected s.log).all (fun fd => !decide (s.Waits fd) ||
      decide ((s.users fd).writeBuf ≠ some (s.fds s.i).fd)) &&
    (match r.received with
    | .data m => !has (s.fds s.i).revents POLLIN || decide (s.i = s.userCounter) && !m.contains NUL &&
        (connected s.log).all fun fd => !decide (s.Waits fd)
    | _ => true) &&
    (match (s.users (s.fds s.i).fd).writeBuf with
    | none => true
    | some owner => decide ((cstring BUFFER_SIZE (s.users owner).buf 0).length ≤ r.taken))

theorem orderly_of_isOrderly {s : Server} {r : Replies} (h : s.isOrderly r = true) : s.Orderly r := by
  unfold isOrderly at h
  simp only [Bool.and_eq_true, List.all_eq_true] at h
  obtain ⟨⟨⟨hrem, hunread⟩, hmsg⟩, hwhole⟩ := h
  constructor
  · simpa using hrem
  · intro _ fd hfd hw
    simpa [hw] using hunread fd hfd
  · intro hrec m hm
    rw [hm] at hmsg
    obtain ⟨hlast, hnul, hidle⟩ : s.i = s.userCounter ∧ NUL ∉ m ∧
        ∀ fd ∈ connected s.log, ¬ s.Waits fd := by
      simpa [hrec.2.2.2, and_assoc] using hmsg
    exact ⟨hlast, fun _ => hnul, hidle⟩
  · intro _ owner hbuf
    rw [hbuf] at hwhole
    exact of_decide_eq_true hwhole

end Server

def Act.Orderly (s : Server) : Act → Prop
  | .poll _ => True
  | .scan r => s.Orderly r

namespace Server

variable {s t : Server} {r : Replies} {a : Act}

/-- A client that waits has the message it is owed before it; the others have got everything. -/
structure Delivers (s : Server) : Prop where
  joined : ∀ fd ∈ connected s.log, (account s.log fd).joined = true
  settled : ∀ fd ∈ connected s.log, ¬ s.Waits fd → (account s.log fd).owed = (account s.log fd).got
  waiting : ∀ fd ∈ connected s.log, s.Waits fd → ∃ owner, (s.users fd).writeBuf = some owner ∧
    (account s.log fd).owed = (account s.log fd).got ++ [cstring BUFFER_SIZE (s.users owner).buf 0]
  asked : ∀ k, s.i ≤ k → 0 ≤ k → k ≤ USER_LIMIT → has (s.fds k).revents POLLOUT →
    has (s.fds k).events POLLOUT

theorem writeBuf_sendTo (s : Server) (taken : ℕ) :
    ((s.sendTo taken).users (s.fds s.i).fd).writeBuf = none := by
  unfold sendTo
  dsimp only
  cases hbuf : (s.users (s.fds s.i).fd).writeBuf with
  | none => exact hbuf
  | some owner => simp [setUser, note]

/-- Behind a round that sends, nothing is left to be sent to the client. -/
theorem Sends.not_waits (h : s.Sends) (r : Replies) : ¬ (s.scan r).Waits (s.fds s.i).fd := by
  obtain ⟨hacc, herr, hup, hin, hout⟩ := h
  have hscan : (s.scan r).users = ((s.access s.i).sendTo r.taken).users := by
    show ((s.access s.i).dispatch r).users = _
    unfold dispatch
    simp only [access_fds, access_i, access_listenfd]
    rw [if_neg hacc, if_neg herr, if_neg hup, if_neg hin, if_pos hout]
  have hnone := writeBuf_sendTo (s.access s.i) r.taken
  rw [access_fds, access_i] at hnone
  rintro ⟨hbuf, -⟩
  rw [hscan] at hbuf
  exact hbuf hnone

theorem Delivers.served (h : Delivers s) : Served s := by
  refine ⟨fun fd hfd => ?_, fun hs r => hs.not_waits r⟩
  by_cases hw : s.Waits fd
  · obtain ⟨owner, -, howed⟩ := h.waiting fd hfd hw
    rw [howed]
    exact ⟨(List.sublist_append_left _ _).subperm, fun hn => absurd hw hn⟩
  · rw [h.settled fd hfd hw]
    exact ⟨.refl _, fun _ => .refl _⟩

theorem delivers_start (users : ℤ → ClientData) (raw : ℤ → PollFd) (listenfd : ℤ) :
    Delivers (start users raw listenfd) := by
  refine ⟨fun fd hfd => absurd hfd List.not_mem_nil, fun fd hfd => absurd hfd List.not_mem_nil,
    fun fd hfd => absurd hfd List.not_mem_nil, fun k hk _ hle => ?_⟩
  have hk' : USER_LIMIT + 1 ≤ k := hk
  omega

theorem waits_congr {fd : ℤ} (husers : (t.users fd).writeBuf = (s.users fd).writeBuf)
    (hcounter : t.userCounter = s.userCounter) (hfd : ∀ k, (t.fds k).fd = (s.fds k).fd)
    (hevents : ∀ k, has (t.fds k).events POLLOUT = has (s.fds k).events POLLOUT) :
    t.Waits fd ↔ s.Waits fd := by
  unfold Waits
  rw [husers, hcounter]
  simp only [hfd, hevents]

/-- The tables and the log are left alone, and the scan is no further back. -/
theorem Delivers.congr (h : Delivers s) (husers : t.users = s.users)
    (hcounter : t.userCounter = s.userCounter) (hfds : t.fds = s.fds)
    (hlog : ∀ fd, account t.log fd = account s.log fd) (hconn : connected t.log = connected s.log)
    (hi : s.i ≤ t.i) : Delivers t := by
  have hw : ∀ fd, t.Waits fd ↔ s.Waits fd := fun fd =>
    waits_congr (by rw [husers]) hcounter (fun k => by rw [hfds]) fun k => by rw [hfds]
  constructor
  · simpa only [hlog, hconn] using h.joined
  · simpa only [hlog, hconn, hw] using h.settled
  · simpa only [hlog, hconn, hw, husers] using h.waiting
  · rw [hfds]
    exact fun k hk => h.asked k (hi.trans hk)

theorem delivers_poll (h : Delivers s) {revents : ℤ → UInt16}
    (hp : s.Polls revents) : Delivers (s.polled revents) := by
  have husers : (s.polled revents).users = s.users := polled_users s _
  have hlog : (s.polled revents).log = s.log := polled_log s _
  have hw : ∀ fd, (s.polled revents).Waits fd ↔ s.Waits fd := fun fd =>
    waits_congr (by rw [husers]) (polled_userCounter s _) (polled_fd s _)
      fun k => by rw [polled_events]
  constructor
  · simpa only [hlog] using h.joined
  · simpa only [hlog, hw] using h.settled
  · simpa only [hlog, hw, husers] using h.waiting
  · intro k _ h0 hk hout
    rw [polled_revents s revents h0 hk] at hout
    rw [polled_events]
    have hpk := hp k h0 hk
    split_ifs at hpk with hneg
    · rw [hpk, has_zero] at hout
      cases hout
    · have hany := has_asked isBit_POLLOUT hpk hout
      rw [has_or isBit_POLLOUT] at hany
      exact (Bool.or_eq_true_iff.1 hany).resolve_right (by decide)

/-! ## The broadcast loop -/

/-- The loop behind `n` rounds in which it does not come to `connfd`. -/
structure Offered (connfd : ℤ) (n : ℕ) (s t : Server) : Prop where
  fd : ∀ k, (t.fds k).fd = (s.fds k).fd
  buf : ∀ fd, (t.users fd).buf = (s.users fd).buf
  writeBuf : ∀ j : ℤ, 1 ≤ j → j ≤ n → (t.users (s.fds j).fd).writeBuf = some connfd
  other : ∀ fd, (∀ j : ℤ, 1 ≤ j → j ≤ n → (s.fds j).fd ≠ fd) →
    (t.users fd).writeBuf = (s.users fd).writeBuf
  events : ∀ j : ℤ, 1 ≤ j → j ≤ n → has (t.fds j).events POLLOUT
  behind : ∀ j : ℤ, n < j → (t.fds j).events = (s.fds j).events

theorem offered {connfd : ℤ} (s : Server) (n : ℕ)
    (hne : ∀ j : ℤ, 1 ≤ j → j ≤ n → (s.fds j).fd ≠ connfd) :
    Offered connfd n s ((List.range n).foldl (fun s (k : ℕ) => s.offer connfd (k + 1)) s) := by
  induction n with
  | zero =>
    refine ⟨fun _ => rfl, fun _ => rfl, fun j h1 h0 => ?_, fun _ _ => rfl, fun j h1 h0 => ?_,
      fun _ _ => rfl⟩
    · omega
    · omega
  | succ n ih =>
    have h := ih fun j h1 hj => hne j h1 (by omega)
    rw [List.range_succ, List.foldl_append, List.foldl_cons, List.foldl_nil]
    generalize (List.range n).foldl _ s = t at h ⊢
    have hfd : (t.fds (n + 1)).fd ≠ connfd := by
      rw [h.fd]
      exact hne _ (by omega) (by omega)
    unfold offer
    dsimp only
    rw [if_neg hfd]
    have hout : ∀ e : UInt16, has ((e ||| ~~~POLLIN) ||| POLLOUT) POLLOUT := by
      intro e
      rw [has_or isBit_POLLOUT]
      exact Bool.or_eq_true_iff.2 (.inr (by decide))
    constructor
    · intro k
      by_cases hk : k = n + 1
      · simp [setUser, hk, h.fd]
      · simp [setUser, Function.update_of_ne hk, h.fd]
    · intro fd
      by_cases hx : fd = (t.fds (n + 1)).fd
      · simp [setUser, hx, h.buf]
      · simp [setUser, Function.update_of_ne hx, h.buf]
    · intro j h1 hj
      by_cases hx : (s.fds j).fd = (t.fds (n + 1)).fd
      · simp [setUser, hx]
      · have hjn : j ≠ n + 1 := fun he => hx (by rw [h.fd, he])
        simp only [setUser, setFd_users, Function.update_of_ne hx]
        exact h.writeBuf j h1 (by push_cast at hj; omega)
    · intro fd hno
      have hx : fd ≠ (t.fds (n + 1)).fd := by
        rw [h.fd]
        exact (hno _ (by omega) (by push_cast; omega)).symm
      simp only [setUser, setFd_users, Function.update_of_ne hx]
      exact h.other fd fun j h1 hj => hno j h1 (by push_cast; omega)
    · intro j h1 hj
      by_cases hk : j = n + 1
      · simp only [setUser, setFd_fds, hk, Function.update_self]
        exact hout _
      · simp only [setUser, setFd_fds, Function.update_of_ne hk]
        exact h.events j h1 (by push_cast at hj; omega)
    · intro j hj
      push_cast at hj
      have hk : j ≠ n + 1 := by omega
      simp only [setUser, setFd_fds, Function.update_of_ne hk]
      exact h.behind j (by omega)

/-! ## The branches -/

theorem Accepted.waits_iff {fd x : ℤ} (ht : Accepted s t fd) (husers : t.users = s.users)
    (hx : x ≠ fd) : t.Waits x ↔ s.Waits x := by
  unfold Waits
  rw [husers, ht.userCounter]
  refine and_congr_right fun _ => ⟨?_, ?_⟩
  · rintro ⟨k, h1, hk, hfd, hout⟩
    have hkc : k ≠ s.userCounter + 1 := by
      rintro rfl
      rw [ht.fds_last] at hfd
      exact hx hfd.symm
    rw [ht.fds_of_ne hkc] at hfd hout
    exact ⟨k, h1, by omega, hfd, hout⟩
  · rintro ⟨k, h1, hk, hfd, hout⟩
    refine ⟨k, h1, by omega, ?_⟩
    rw [ht.fds_of_ne (by omega)]
    exact ⟨hfd, hout⟩

theorem Accepted.not_waits {fd : ℤ} (ht : Accepted s t fd) (hgood : Good s)
    (hnew : fd ∉ ChatServer.connected s.log) : ¬ t.Waits fd := by
  rintro ⟨-, k, h1, hk, hfd, hout⟩
  rw [ht.userCounter] at hk
  by_cases hkc : k = s.userCounter + 1
  · rw [hkc, ht.fds_last] at hout
    exact absurd hout (show ¬ has (POLLIN ||| POLLRDHUP ||| POLLERR) POLLOUT by decide)
  · rw [ht.fds_of_ne hkc] at hfd
    exact hnew (hfd ▸ hgood.client h1 (by omega))

theorem delivers_accepted (h : Delivers s) (hgood : Good s) {fd : ℤ} (hnew : fd ∉ connected s.log)
    (ht : Accepted s t fd) (husers : t.users = s.users) : Delivers t := by
  have hconn := ht.connected
  have hold : ∀ x ∈ connected s.log, x ≠ fd := fun x hx he => hnew (he ▸ hx)
  have haccount : ∀ x ∈ connected s.log, account t.log x = account s.log x := by
    intro x hx
    rw [ht.log, account_concat]
    exact if_neg (hold x hx).symm
  have hself : account t.log fd = ⟨true, [], []⟩ := by
    rw [ht.log, account_concat]
    exact if_pos rfl
  constructor
  · intro x hx
    rw [hconn] at hx
    rcases List.mem_append.1 hx with hx | hx
    · rw [haccount x hx]
      exact h.joined x hx
    · rw [List.mem_singleton.1 hx, hself]
  · intro x hx hno
    rw [hconn] at hx
    rcases List.mem_append.1 hx with hx | hx
    · rw [haccount x hx]
      exact h.settled x hx fun hw => hno ((ht.waits_iff husers (hold x hx)).2 hw)
    · rw [List.mem_singleton.1 hx, hself]
  · intro x hx hwait
    rw [hconn] at hx
    rcases List.mem_append.1 hx with hx | hx
    · rw [haccount x hx, husers]
      exact h.waiting x hx ((ht.waits_iff husers (hold x hx)).1 hwait)
    · rw [List.mem_singleton.1 hx] at hwait
      exact absurd hwait (ht.not_waits hgood hnew)
  · intro k hk h0 hle hout
    rw [ht.i] at hk
    by_cases hkc : k = s.userCounter + 1
    · rw [hkc, ht.fds_last, has_zero] at hout
      cases hout
    · rw [ht.fds_of_ne hkc] at hout ⊢
      exact h.asked k hk h0 hle hout

theorem delivers_acceptClient (h : Delivers s) (hgood : Good s) {connfd : ℤ}
    (hnew : 0 ≤ connfd → connfd ∉ connected s.log) : Delivers (s.acceptClient connfd) := by
  by_cases hcase : 0 ≤ connfd ∧ s.userCounter < USER_LIMIT
  · obtain ⟨ht, husers⟩ := acceptClient_accepted hcase.1 hcase.2
    exact delivers_accepted h hgood (hnew hcase.1) ht husers
  · rcases acceptClient_other hcase with ht | ht
    · rw [ht]
      exact h
    · rw [ht]
      exact h.congr rfl rfl rfl (fun fd => account_concat s.log _ fd) (by simp [note]) le_rfl

theorem setBuf_writeBuf (s : Server) (connfd : ℤ) (m : List UInt8) (fd : ℤ) :
    ((s.setBuf connfd m).users fd).writeBuf = (s.users fd).writeBuf := by
  by_cases hfd : fd = connfd
  · simp [setBuf, setUser, hfd]
  · simp [setBuf, setUser, Function.update_of_ne hfd]

/-- The buffer of a client is cleared that nobody waits for. -/
theorem delivers_cleared (h : Delivers s) {connfd : ℤ}
    (hunread : ∀ fd ∈ connected s.log, s.Waits fd → (s.users fd).writeBuf ≠ some connfd) :
    Delivers (s.setBuf connfd []) := by
  have hwrite := setBuf_writeBuf s connfd []
  have hw : ∀ fd, (s.setBuf connfd []).Waits fd ↔ s.Waits fd := fun fd =>
    waits_congr (hwrite fd) rfl (fun _ => rfl) fun _ => rfl
  constructor
  · exact h.joined
  · exact fun fd hfd hno => h.settled fd hfd fun hwait => hno ((hw fd).2 hwait)
  · intro fd hfd hwait
    have hwait' := (hw fd).1 hwait
    obtain ⟨owner, hbuf, howed⟩ := h.waiting fd hfd hwait'
    refine ⟨owner, (hwrite fd).trans hbuf, ?_⟩
    have hne : owner ≠ connfd := fun he => hunread fd hfd hwait' (he ▸ hbuf)
    have hsame : (s.setBuf connfd []).users owner = s.users owner := Function.update_of_ne hne _ _
    rw [hsame]
    exact howed
  · exact h.asked

/-- A message without NUL is read back from the buffer. -/
theorem cstring_received {buf : Buf} {m : List UInt8} (hnul : NUL ∉ m)
    (hlen : m.length ≤ BUFFER_SIZE - 1) :
    cstring BUFFER_SIZE (strncpy buf 0 BUFFER_SIZE m) 0 = m := by
  have hlt : m.length < BUFFER_SIZE := by
    unfold BUFFER_SIZE at hlen ⊢
    omega
  refine cstring_eq (t := List.replicate (BUFFER_SIZE - m.length) NUL) ?_ ?_ ?_
  · rintro b hb rfl
    exact hnul hb
  · obtain ⟨n, hn⟩ : ∃ n, BUFFER_SIZE - m.length = n + 1 := ⟨BUFFER_SIZE - m.length - 1, by omega⟩
    rw [hn]
    rfl
  · rw [contents_strncpy, List.take_of_length_le hlt.le]

/-- Every client but the one it came from is owed the message. -/
theorem Delivers.account_received (h : Delivers s) {fd : ℤ} (hfd : fd ∈ connected s.log)
    (connfd : ℤ) (m : List UInt8) : account (s.log ++ [.received connfd m]) fd =
      if connfd ≠ fd then { account s.log fd with owed := (account s.log fd).owed ++ [m] }
      else account s.log fd := by
  rw [account_concat]
  simp [Account.next, h.joined fd hfd]

/-- `t` is the state after the client that came last has sent a message. -/
structure Spoken (m : List UInt8) (s t : Server) : Prop where
  same : SameTable s t
  log : t.log = s.log ++ [.received (s.fds s.userCounter).fd m]
  buf : (t.users (s.fds s.userCounter).fd).buf =
    strncpy (s.users (s.fds s.userCounter).fd).buf 0 BUFFER_SIZE m
  sender : (t.users (s.fds s.userCounter).fd).writeBuf = (s.users (s.fds s.userCounter).fd).writeBuf
  writeBuf : ∀ j, 1 ≤ j → j < s.userCounter →
    (t.users (s.fds j).fd).writeBuf = some (s.fds s.userCounter).fd
  events : ∀ j, 1 ≤ j → j < s.userCounter → has (t.fds j).events POLLOUT
  kept : ∀ j, j = 0 ∨ s.userCounter ≤ j → (t.fds j).events = (s.fds j).events

theorem spoken (hgood : Good s) (hpos : 1 ≤ s.userCounter) (m : List UInt8) :
    Spoken m s (((s.setBuf (s.fds s.userCounter).fd m).note
      (.received (s.fds s.userCounter).fd m)).broadcast (s.fds s.userCounter).fd) := by
  let connfd := (s.fds s.userCounter).fd
  let noted := (s.setBuf connfd m).note (.received connfd m)
  let n := (s.userCounter - 1).toNat
  have hn : (n : ℤ) + 1 = s.userCounter := by omega
  -- the sender is not in the loop
  have hne : ∀ j : ℤ, 1 ≤ j → j ≤ n → (s.fds j).fd ≠ connfd := by
    intro j h1 hj he
    have := hgood.place_inj h1 (by omega) hpos le_rfl he
    omega
  have hoff : Offered connfd n noted (noted.broadcast connfd) := offered noted n hne
  obtain ⟨hsame, hlog⟩ := broadcast_same noted connfd
  have hnoted : SameTable s noted := .of_eq rfl rfl rfl rfl
  refine ⟨hnoted.trans hsame, hlog, ?_, ?_, fun j h1 hj => hoff.writeBuf j h1 (by omega),
    fun j h1 hj => hoff.events j h1 (by omega), ?_⟩
  · rw [hoff.buf]
    simp [noted, note, setBuf, setUser, connfd]
  · rw [hoff.other connfd hne]
    exact setBuf_writeBuf s connfd m connfd
  · rintro j (rfl | hj)
    · exact congrArg PollFd.events (broadcast_zero noted connfd)
    · exact hoff.behind j (by omega)

theorem Spoken.sender_idle {m : List UInt8} (ht : Spoken m s t) (hgood : Good s)
    (hpos : 1 ≤ s.userCounter) (hidle : ¬ s.Waits (s.fds s.userCounter).fd) :
    ¬ t.Waits (s.fds s.userCounter).fd := by
  rintro ⟨hbuf, k, h1, hk, hfd, hout⟩
  rw [ht.same.userCounter] at hk
  rw [ht.same.fd] at hfd
  have hkc : k = s.userCounter := hgood.place_inj h1 hk hpos le_rfl hfd
  rw [ht.kept k (.inr hkc.ge)] at hout
  rw [ht.sender] at hbuf
  exact hidle ⟨hbuf, k, h1, hk, hfd, hout⟩

theorem Spoken.waits {m : List UInt8} (ht : Spoken m s t) (hgood : Good s) {fd : ℤ}
    (hfd : fd ∈ connected s.log) (hne : (s.fds s.userCounter).fd ≠ fd) :
    1 < s.userCounter ∧ t.Waits fd ∧ (t.users fd).writeBuf = some (s.fds s.userCounter).fd := by
  obtain ⟨j, h1, hj, rfl⟩ := hgood.place_of_mem hfd
  have hlt : j < s.userCounter := lt_of_le_of_ne hj fun he => hne (by rw [he])
  have hbuf := ht.writeBuf j h1 hlt
  have hcount := ht.same.userCounter
  refine ⟨by omega, ⟨by rw [hbuf]; simp, j, h1, by omega, ht.same.fd j, ht.events j h1 hlt⟩, hbuf⟩

/-- The client that came last sends a message while nobody waits. -/
theorem delivers_received (h : Delivers s) (hgood : Good s) (hpos : 1 ≤ s.userCounter)
    {m : List UInt8} (hlen : m.length ≤ BUFFER_SIZE - 1) (hnul : 1 < s.userCounter → NUL ∉ m)
    (hidle : ∀ fd ∈ connected s.log, ¬ s.Waits fd) :
    let connfd := (s.fds s.userCounter).fd
    Delivers (((s.setBuf connfd m).note (.received connfd m)).broadcast connfd) := by
  intro connfd
  have ht := spoken hgood hpos m
  have hsender := ht.sender_idle hgood hpos (hidle connfd (hgood.client hpos le_rfl))
  generalize ((s.setBuf (s.fds s.userCounter).fd m).note
    (.received (s.fds s.userCounter).fd m)).broadcast (s.fds s.userCounter).fd = t at ht hsender ⊢
  have hconn : connected t.log = connected s.log := by
    rw [ht.log]
    exact connected_received s.log connfd m
  have haccount : ∀ fd ∈ connected s.log, account t.log fd =
      if connfd ≠ fd then { account s.log fd with owed := (account s.log fd).owed ++ [m] }
      else account s.log fd := by
    intro fd hfd
    rw [ht.log]
    exact h.account_received hfd connfd m
  constructor
  · intro fd hfd
    rw [hconn] at hfd
    rw [haccount fd hfd]
    split_ifs <;> exact h.joined fd hfd
  · intro fd hfd hno
    rw [hconn] at hfd
    by_cases hne : connfd = fd
    · rw [haccount fd hfd, if_neg (by simpa using hne)]
      exact h.settled fd hfd (hidle fd hfd)
    · exact absurd (ht.waits hgood hfd hne).2.1 hno
  · intro fd hfd hwait
    rw [hconn] at hfd
    have hne : connfd ≠ fd := by
      rintro rfl
      exact hsender hwait
    obtain ⟨hmany, -, hbuf⟩ := ht.waits hgood hfd hne
    refine ⟨connfd, hbuf, ?_⟩
    rw [haccount fd hfd, if_pos hne, ht.buf, cstring_received (hnul hmany) hlen]
    dsimp only
    rw [h.settled fd hfd (hidle fd hfd)]
  · intro k hk h0 hle hout
    rw [ht.same.i] at hk
    rw [ht.same.revents] at hout
    by_cases hplace : 1 ≤ k ∧ k < s.userCounter
    · exact ht.events k hplace.1 hplace.2
    · rw [ht.kept k (by omega)]
      exact h.asked k hk h0 hle hout

/-- `t` is the state after `text` has been sent whole to `fd`. -/
structure SentTo (s t : Server) (fd : ℤ) (text : List UInt8) : Prop where
  fds : ∀ k, (t.fds k).fd = (s.fds k).fd ∧ (t.fds k).revents = (s.fds k).revents ∧
    has (t.fds k).events POLLOUT = has (s.fds k).events POLLOUT
  users : t.users = Function.update s.users fd { s.users fd with writeBuf := none }
  userCounter : t.userCounter = s.userCounter
  log : t.log = s.log ++ [.sent fd text]
  i : t.i = s.i

theorem sendTo_whole {owner : ℤ} (hbuf : (s.users (s.fds s.i).fd).writeBuf = some owner) {taken : ℕ}
    (hwhole : (cstring BUFFER_SIZE (s.users owner).buf 0).length ≤ taken) :
    SentTo s (s.sendTo taken) (s.fds s.i).fd (cstring BUFFER_SIZE (s.users owner).buf 0) := by
  unfold sendTo
  dsimp only
  rw [hbuf]
  dsimp only
  rw [List.take_of_length_le hwhole]
  refine ⟨fun k => ?_, ?_, ?_, ?_, ?_⟩
  · by_cases hk : k = s.i
    · rw [hk, setFd_fds, Function.update_self]
      refine ⟨rfl, rfl, ?_⟩
      rw [has_or isBit_POLLOUT, has_or isBit_POLLOUT, has_not isBit_POLLOUT]
      simp [show has POLLOUT POLLOUT = true by decide, show has POLLIN POLLOUT = false by decide]
    · rw [setFd_fds, Function.update_of_ne hk]
      exact ⟨rfl, rfl, rfl⟩
  all_goals simp [note, setUser]

theorem SentTo.delivers {fd owner : ℤ} {text : List UInt8} (ht : SentTo s t fd text)
    (h : Delivers s) (hfd : fd ∈ connected s.log) (hwait : s.Waits fd)
    (hbuf : (s.users fd).writeBuf = some owner)
    (htext : cstring BUFFER_SIZE (s.users owner).buf 0 = text) : Delivers t := by
  obtain ⟨owner', hbuf', howed⟩ := h.waiting fd hfd hwait
  obtain rfl : owner = owner' := Option.some.inj (hbuf.symm.trans hbuf')
  rw [htext] at howed
  have hconn : connected t.log = connected s.log := by rw [ht.log, connected_sent]
  have hself : account t.log fd =
      { account s.log fd with got := (account s.log fd).got ++ [text] } := by
    rw [ht.log, account_concat]
    exact if_pos rfl
  have hother : ∀ x, x ≠ fd → account t.log x = account s.log x := by
    intro x hne
    rw [ht.log, account_concat]
    exact if_neg hne.symm
  have hw : ∀ x, x ≠ fd → (t.Waits x ↔ s.Waits x) := fun x hne =>
    waits_congr (by rw [ht.users, Function.update_of_ne hne]) ht.userCounter (fun k => (ht.fds k).1)
      fun k => (ht.fds k).2.2
  have hserved : ¬ t.Waits fd := by
    rintro ⟨hno, -⟩
    rw [ht.users, Function.update_self] at hno
    exact hno rfl
  constructor
  · intro x hm
    rw [hconn] at hm
    by_cases hne : x = fd
    · rw [hne, hself]
      exact h.joined fd hfd
    · rw [hother x hne]
      exact h.joined x hm
  · intro x hm hno
    rw [hconn] at hm
    by_cases hne : x = fd
    · rw [hne, hself]
      exact howed
    · rw [hother x hne]
      exact h.settled x hm fun hwx => hno ((hw x hne).2 hwx)
  · intro x hm hwx
    rw [hconn] at hm
    by_cases hne : x = fd
    · exact absurd (hne ▸ hwx) hserved
    · obtain ⟨o, ho, hox⟩ := h.waiting x hm ((hw x hne).1 hwx)
      have hbufs : (t.users o).buf = (s.users o).buf := by
        rw [ht.users]
        by_cases hofd : o = fd
        · rw [hofd, Function.update_self]
        · rw [Function.update_of_ne hofd]
      rw [hother x hne, ht.users, Function.update_of_ne hne, ← ht.users]
      refine ⟨o, ho, ?_⟩
      rw [hbufs]
      exact hox
  · intro k hk h0 hkl hre
    rw [ht.i] at hk
    rw [(ht.fds k).2.1] at hre
    rw [(ht.fds k).2.2]
    exact h.asked k hk h0 hkl hre

/-- A client that waits is served. -/
theorem delivers_sent (h : Delivers s) (hgood : Good s) (h1 : 1 ≤ s.i) (hle : s.i ≤ s.userCounter)
    (hout : has (s.fds s.i).events POLLOUT) {taken : ℕ}
    (hwhole : ∀ owner, (s.users (s.fds s.i).fd).writeBuf = some owner →
      (cstring BUFFER_SIZE (s.users owner).buf 0).length ≤ taken) : Delivers (s.sendTo taken) := by
  cases hbuf : (s.users (s.fds s.i).fd).writeBuf with
  | none =>
    have hidle : s.sendTo taken = s := by
      unfold sendTo
      dsimp only
      rw [hbuf]
    rw [hidle]
    exact h
  | some owner =>
    have hwait : s.Waits (s.fds s.i).fd := ⟨by rw [hbuf]; simp, s.i, h1, hle, rfl, hout⟩
    exact (sendTo_whole hbuf (hwhole owner hbuf)).delivers h (hgood.client h1 hle) hwait hbuf rfl

/-! ## Runs -/

theorem delivers_dispatch (h : Delivers s) (hgood : Good s) (hi : s.i ≤ USER_LIMIT) (ha : s.Answers r)
    (ho : s.Orderly r) : Delivers (s.dispatch r) := by
  have hplace := hgood.place_nonneg
  -- an entry that has events and is not the listening socket's is a client's
  have hclient : ∀ bit, has (s.fds s.i).revents bit → s.i ≠ 0 → 1 ≤ s.i ∧ s.i ≤ s.userCounter := by
    intro bit hbit h0
    refine ⟨by omega, ?_⟩
    by_contra hlt
    have hneg := hgood.beyond s.i (by omega) hi
    rw [hgood.silent s.i le_rfl hplace hi hneg, has_zero] at hbit
    cases hbit
  unfold dispatch
  dsimp only
  split_ifs with hacc herr hup hin hout
  · exact delivers_acceptClient h hgood fun h0 => (ha.1 h0).2
  · exact h
  · exact absurd ⟨hacc, herr, .inl hup⟩ ho.stays
  · have hrec : s.Receives := ⟨hacc, herr, hup, hin⟩
    have hunread := ho.unread hrec
    have h0 : s.i ≠ 0 := by
      intro h0
      rw [h0] at hacc hin
      exact hacc ⟨hgood.listen, hin⟩
    unfold receive
    dsimp only
    cases hr : r.received with
    | data m =>
      obtain ⟨hlast, hnul, hidle⟩ := ho.message hrec m hr
      obtain ⟨h1, hle⟩ := hclient _ hin h0
      have hdel := delivers_received h hgood (by omega) (ha.2 m hr).2 hnul hidle
      dsimp only at hdel ⊢
      rwa [hlast]
    | eof => exact delivers_cleared h hunread
    | error again =>
      cases again with
      | true => exact delivers_cleared h hunread
      | false => exact absurd ⟨hacc, herr, .inr ⟨hin, hr⟩⟩ ho.stays
  · have h0 : s.i ≠ 0 := by
      intro h0
      rw [h0, (hgood.told h0).2] at hout
      cases hout
    obtain ⟨h1, hle⟩ := hclient _ hout h0
    exact delivers_sent h hgood h1 hle (h.asked s.i le_rfl hplace hi hout)
      (ho.whole ⟨hacc, herr, hup, hin, hout⟩)
  · exact h

theorem Orderly.access (h : s.Orderly r) (k : ℤ) : (s.access k).Orderly r := by
  obtain ⟨h1, h2, h3, h4⟩ := h
  constructor
  · simpa [Removes] using h1
  · simpa [Receives, Waits] using h2
  · simpa [Receives, Waits] using h3
  · simpa [Sends] using h4

theorem delivers_scan (h : Delivers s) (hgood : Good s) (hi : s.i ≤ USER_LIMIT) (ha : s.Answers r)
    (ho : s.Orderly r) : Delivers (s.scan r) := by
  have hacc : Delivers (s.access s.i) :=
    h.congr (by simp) (by simp) (by simp) (by simp) (by simp) (by simp)
  have hdis := delivers_dispatch hacc (hgood.access s.i) (by simpa using hi)
    (by simpa [Answers] using ha) (ho.access s.i)
  refine hdis.congr rfl rfl rfl (fun _ => rfl) rfl ?_
  show ((s.access s.i).dispatch r).i ≤ ((s.access s.i).dispatch r).i + 1
  omega

end Server

/-- **The broadcast.** In a run of the chat server whose rounds are orderly, every client has got the
messages that others sent since it came, each once, with the one that it waits for to come; and nothing
else. -/
theorem chat_broadcast {users : ℤ → ClientData} {raw : ℤ → PollFd} {listenfd : ℤ} {acts : List Act}
    {s : Server} (hl : 0 ≤ listenfd) (hraw : (raw USER_LIMIT).fd < 0)
    (hr : Run (fun s a t => Step s a t ∧ a.Orderly s) (Server.start users raw listenfd) acts s) :
    s.Served := by
  have hinv : s.Good ∧ s.Delivers := by
    refine hr.invariant (I := fun s => s.Good ∧ s.Delivers) ?_
      ⟨Server.good_start hl hraw, Server.delivers_start users raw listenfd⟩
    rintro s a t ⟨hgood, hdel⟩ ⟨hs, ho⟩
    cases hs with
    | poll _ hp => exact ⟨Server.good_poll hgood hp, Server.delivers_poll hdel hp⟩
    | scan hi ha =>
      exact ⟨Server.good_scan hgood hi ha ho.stays, Server.delivers_scan hdel hgood hi ha ho⟩
  exact hinv.2.served

/-- Two clients come, the second one sends a line and the first is served. -/
theorem chat_broadcast_two :
    let acts := pass [POLLIN] 4 .eof 5 ++ pass [POLLIN] 5 .eof 5 ++
      pass [0, 0, POLLIN] (-1) (.data [104, 105]) 5 ++ pass [0, POLLOUT] (-1) .eof 5
    let s := acts.foldl Server.exec Server.blank
    (account s.log 4).got = [[104, 105]] ∧ s.Served := by
  intro acts s
  have hr : Run (fun s a t => Step s a t ∧ a.Orderly s) Server.blank acts s := by
    refine Run.of_permits (fun s a h => ?_) (by decide +kernel : Run.permits (fun s a => s.allows a &&
      match a with | .poll _ => true | .scan r => s.isOrderly r) Server.exec Server.blank acts = true)
    obtain ⟨ha, ho⟩ := Bool.and_eq_true_iff.1 h
    cases a with
    | poll revents => exact ⟨s.step_exec _ ha, trivial⟩
    | scan r => exact ⟨s.step_exec _ ha, Server.orderly_of_isOrderly ho⟩
  exact ⟨by decide +kernel, chat_broadcast (by decide) (by decide) hr⟩

/-- Two clients come and the first one sends a line: the loop stops before the second. -/
theorem chat_last_missed : ¬ ∀ (users : ℤ → ClientData) (raw : ℤ → PollFd) (listenfd : ℤ)
    (acts : List Act) (s : Server), 0 ≤ listenfd → (raw USER_LIMIT).fd < 0 →
      Run Step (Server.start users raw listenfd) acts s → s.Served := by
  intro hall
  let acts := pass [POLLIN] 4 .eof 5 ++ pass [POLLIN] 5 .eof 5 ++
    pass [0, POLLIN] (-1) (.data [104, 105]) 5
  have hr : Run Step Server.blank acts (acts.foldl Server.exec Server.blank) :=
    Run.of_permits Server.step_exec (by decide +kernel)
  have hserved := hall _ _ _ acts _ (by decide) (by decide) hr
  have hperm := (hserved.owed 5 (by decide +kernel)).2 (by decide +kernel)
  exact absurd hperm.length_eq (by decide +kernel)

end SocketTest.ChatServer
