import SocketTest.ChatServer.Server
import SocketTest.Lib.History
import SocketTest.Lib.Run
import SocketTest.Lib.SwapRemove

/-!
# The table of connections

While no client is taken away, the table is in order at every point of a scan (`Good`): the clients
stand in it in the order of their arrival. The first removal leaves a copy of the last entry behind the
end of the table (`Spoiled`), and the scan cannot mend it without closing a descriptor twice;
`table_tidy` says that the table is in order after every scan exactly when no client is taken away.
-/

namespace SocketTest.ChatServer

open SocketTest.Lib

/-- A descriptor is closed while it is open. -/
def ClosedOnce (log : List Happening) : Prop :=
  Throughout (fun before h => ∀ fd, h = .closed fd → fd ∈ connected before) log

namespace Server

/-- The table is that of the clients connected, each in one place, with nothing behind them, and no
descriptor has been closed twice. -/
structure Tidy (s : Server) : Prop where
  counter : s.userCounter = (connected s.log).length
  entries : (SwapRemove.entries (fun k => (s.fds (k + 1)).fd) (connected s.log).length).Perm
    (connected s.log)
  nodup : (connected s.log).Nodup
  listen : (s.fds 0).fd = s.listenfd
  beyond : ∀ k, s.userCounter < k → k ≤ USER_LIMIT → (s.fds k).fd < 0
  closed : ClosedOnce s.log

/-- The scan has come to the end of the table. -/
def AtEnd (s : Server) : Prop := s.i = USER_LIMIT + 1

instance decidableAtEnd (s : Server) : Decidable s.AtEnd := inferInstanceAs (Decidable (_ = _))

/-- The round takes the client at the place of the scan away. -/
def Removes (s : Server) (r : Replies) : Prop :=
  ¬ ((s.fds s.i).fd = s.listenfd ∧ has (s.fds s.i).revents POLLIN) ∧
    ¬ has (s.fds s.i).revents POLLERR ∧
    (has (s.fds s.i).revents POLLRDHUP ∨
      has (s.fds s.i).revents POLLIN ∧ r.received = .error false)

instance decidableRemoves (s : Server) (r : Replies) : Decidable (s.Removes r) :=
  inferInstanceAs (Decidable (_ ∧ _))

end Server

/-- A client is taken away. -/
def Act.Removes (s : Server) : Act → Prop
  | .poll _ => False
  | .scan r => s.Removes r

instance Act.decidableRemoves (s : Server) : (a : Act) → Decidable (a.Removes s)
  | .poll _ => .isFalse id
  | .scan r => inferInstanceAs (Decidable (s.Removes r))

namespace Server

variable {s t : Server} {r : Replies} {a : Act}

/-! ## A round -/

/-- The branches that note no arrival and no departure. -/
def SameClients (s t : Server) : Prop :=
  t.log = s.log ∨ ∃ h, t.log = s.log ++ [h] ∧ connected (s.log ++ [h]) = connected s.log ∧
    ∀ fd, h ≠ .closed fd

theorem SameClients.connected (h : SameClients s t) :
    ChatServer.connected t.log = ChatServer.connected s.log := by
  rcases h with h | ⟨x, h, hx, -⟩
  · rw [h]
  · rw [h, hx]

theorem SameClients.closedOnce (h : SameClients s t) (hc : ClosedOnce s.log) : ClosedOnce t.log := by
  rcases h with h | ⟨x, h, -, hx⟩
  · rw [h]
    exact hc
  · rw [h]
    exact throughout_concat.2 ⟨hc, fun fd he => absurd he (hx fd)⟩

/-- The table behind a removal, `c` being the counter. -/
structure Removed (s t : Server) : Prop where
  fds : t.fds = Function.update s.fds s.i (s.fds s.userCounter)
  userCounter : t.userCounter = s.userCounter - 1
  listenfd : t.listenfd = s.listenfd
  i : t.i = s.i - 1
  log : t.log = s.log ++ [.closed (s.fds s.i).fd]

theorem remove_removed (s : Server) : Removed s s.remove := by
  unfold remove
  constructor
  · simp [note, setUser]
  · simp
  · simp [note, setUser]
  · simp
  · simp [note, setUser]

theorem dispatch_removes (h : s.Removes r) : Removed s (s.dispatch r) := by
  obtain ⟨hacc, herr, hcase⟩ := h
  unfold dispatch
  dsimp only
  rw [if_neg hacc, if_neg herr]
  by_cases hup : has (s.fds s.i).revents POLLRDHUP
  · rw [if_pos hup]
    exact remove_removed s
  · obtain ⟨hin, hr⟩ := hcase.resolve_left hup
    rw [if_neg hup, if_pos hin, hr]
    obtain ⟨h1, h2, h3, h4, h5⟩ := remove_removed (s.setBuf (s.fds s.i).fd [])
    exact ⟨h1, h2, h3, h4, h5⟩

theorem receive_kept {x : Received} (hx : x ≠ .error false) :
    SameTable s (s.receive x) ∧ SameClients s (s.receive x) := by
  cases x with
  | data m =>
    let noted := (s.setBuf (s.fds s.i).fd m).note (.received (s.fds s.i).fd m)
    obtain ⟨hsame, hlog⟩ := broadcast_same noted (s.fds s.i).fd
    have hnoted : SameTable s noted := .of_eq rfl rfl rfl rfl
    exact ⟨hnoted.trans hsame, .inr ⟨_, hlog, by simp, fun fd he => by cases he⟩⟩
  | eof => exact ⟨.of_eq rfl rfl rfl rfl, .inl rfl⟩
  | error again =>
    cases again with
    | true => exact ⟨.of_eq rfl rfl rfl rfl, .inl rfl⟩
    | false => exact absurd rfl hx

theorem sendTo_kept (s : Server) (taken : ℕ) :
    SameTable s (s.sendTo taken) ∧ SameClients s (s.sendTo taken) := by
  unfold sendTo
  dsimp only
  cases (s.users (s.fds s.i).fd).writeBuf with
  | none => exact ⟨.refl s, .inl rfl⟩
  | some owner =>
    let told := (s.note (.sent (s.fds s.i).fd
      ((cstring BUFFER_SIZE (s.users owner).buf 0).take taken))).setUser (s.fds s.i).fd
        { s.users (s.fds s.i).fd with writeBuf := none }
    have htold : SameTable s told := .of_eq rfl rfl rfl rfl
    refine ⟨htold.trans ?_, .inr ⟨_, setFd_log told _ _, by simp, fun fd he => by cases he⟩⟩
    exact @SameTable.setFd told s.i { s.fds s.i with
      events := ((s.fds s.i).events ||| ~~~POLLOUT) ||| POLLIN } rfl rfl

/-- A round with neither an arrival nor a removal. -/
theorem dispatch_kept (hacc : ¬ ((s.fds s.i).fd = s.listenfd ∧ has (s.fds s.i).revents POLLIN))
    (hrem : ¬ s.Removes r) : SameTable s (s.dispatch r) ∧ SameClients s (s.dispatch r) := by
  unfold dispatch
  dsimp only
  rw [if_neg hacc]
  split_ifs with herr hup hin hout
  · exact ⟨.refl s, .inl rfl⟩
  · exact absurd ⟨hacc, herr, .inl hup⟩ hrem
  · exact receive_kept fun hr => hrem ⟨hacc, herr, .inr ⟨hin, hr⟩⟩
  · exact sendTo_kept s r.taken
  · exact ⟨.refl s, .inl rfl⟩

/-- The table behind the arrival of the client `fd`. -/
structure Accepted (s t : Server) (fd : ℤ) : Prop where
  fds : t.fds = Function.update s.fds (s.userCounter + 1) ⟨fd, POLLIN ||| POLLRDHUP ||| POLLERR, 0⟩
  userCounter : t.userCounter = s.userCounter + 1
  listenfd : t.listenfd = s.listenfd
  i : t.i = s.i
  log : t.log = s.log ++ [.accepted fd]

section

variable {fd : ℤ} (ht : Accepted s t fd)

include ht

theorem Accepted.connected : connected t.log = connected s.log ++ [fd] := by
  rw [ht.log, connected_accepted]

theorem Accepted.clients (h : ∀ x ∈ ChatServer.connected s.log, 0 ≤ x ∧ x ≠ s.listenfd) (h0 : 0 ≤ fd)
    (hnew : fd ≠ s.listenfd) : ∀ x ∈ ChatServer.connected t.log, 0 ≤ x ∧ x ≠ t.listenfd := by
  rw [ht.connected, ht.listenfd]
  intro x hx
  rcases List.mem_append.1 hx with hx | hx
  · exact h x hx
  · rw [List.mem_singleton.1 hx]
    exact ⟨h0, hnew⟩

theorem Accepted.nodup (h : (ChatServer.connected s.log).Nodup)
    (hnew : fd ∉ ChatServer.connected s.log) : (ChatServer.connected t.log).Nodup := by
  rw [ht.connected, List.nodup_append]
  refine ⟨h, List.nodup_singleton _, ?_⟩
  rintro x hx y hy rfl
  exact hnew (List.mem_singleton.1 hy ▸ hx)

theorem Accepted.fds_of_ne {k : ℤ} (hk : k ≠ s.userCounter + 1) : t.fds k = s.fds k := by
  rw [ht.fds, Function.update_of_ne hk]

theorem Accepted.fds_last :
    t.fds (s.userCounter + 1) = ⟨fd, POLLIN ||| POLLRDHUP ||| POLLERR, 0⟩ := by
  rw [ht.fds, Function.update_self]

end

theorem acceptClient_accepted {fd : ℤ} (h0 : 0 ≤ fd) (hroom : s.userCounter < USER_LIMIT) :
    Accepted s (s.acceptClient fd) fd ∧ (s.acceptClient fd).users = s.users := by
  unfold acceptClient
  rw [if_neg (by omega), if_neg (by omega)]
  refine ⟨⟨?_, rfl, ?_, ?_, ?_⟩, ?_⟩ <;> simp [note]

/-- What `accept` gives makes no client: it failed, or the table is full. -/
theorem acceptClient_other {fd : ℤ} (h : ¬ (0 ≤ fd ∧ s.userCounter < USER_LIMIT)) :
    s.acceptClient fd = s ∨ s.acceptClient fd = s.note (.refused fd) := by
  unfold acceptClient
  split_ifs with hneg hfull
  · exact .inl rfl
  · exact .inr rfl
  · omega

theorem dispatch_accepts (hfd : (s.fds s.i).fd = s.listenfd)
    (hin : has (s.fds s.i).revents POLLIN) :
    (s.dispatch r).fds = s.fds ∧ SameTable s (s.dispatch r) ∧ SameClients s (s.dispatch r) ∨
      0 ≤ r.connfd ∧ s.userCounter < USER_LIMIT ∧ Accepted s (s.dispatch r) r.connfd := by
  unfold dispatch
  dsimp only
  rw [if_pos ⟨hfd, hin⟩]
  by_cases hnew : 0 ≤ r.connfd ∧ s.userCounter < USER_LIMIT
  · exact .inr ⟨hnew.1, hnew.2, (acceptClient_accepted hnew.1 hnew.2).1⟩
  · left
    rcases acceptClient_other hnew with h | h
    · rw [h]
      exact ⟨rfl, .refl s, .inl rfl⟩
    · rw [h]
      exact ⟨rfl, .of_eq rfl rfl rfl rfl, .inr ⟨_, rfl, by simp, fun fd he => by cases he⟩⟩

theorem offer_zero (s : Server) (connfd : ℤ) (k : ℕ) : (s.offer connfd (k + 1)).fds 0 = s.fds 0 := by
  unfold offer
  dsimp only
  split_ifs
  · simp
  · simp only [setUser, setFd_fds]
    exact Function.update_of_ne (by omega) _ _

theorem broadcast_zero (s : Server) (connfd : ℤ) : (s.broadcast connfd).fds 0 = s.fds 0 := by
  unfold broadcast
  generalize (s.userCounter - 1).toNat = n
  induction n with
  | zero => rfl
  | succ n ih =>
    rw [List.range_succ, List.foldl_append]
    exact (offer_zero _ _ _).trans ih

/-- What the listening socket is asked for stays. -/
theorem dispatch_zero (hacc : ¬ ((s.fds s.i).fd = s.listenfd ∧ has (s.fds s.i).revents POLLIN))
    (hrem : ¬ s.Removes r) (hout : s.i = 0 → has (s.fds s.i).revents POLLOUT = false) :
    (s.dispatch r).fds 0 = s.fds 0 := by
  unfold dispatch
  dsimp only
  rw [if_neg hacc]
  split_ifs with herr hup hin hout'
  · rfl
  · exact absurd ⟨hacc, herr, .inl hup⟩ hrem
  · cases hr : r.received with
    | data m => exact broadcast_zero _ _
    | eof => rfl
    | error again =>
      cases again with
      | true => rfl
      | false => exact absurd ⟨hacc, herr, .inr ⟨hin, hr⟩⟩ hrem
  · have hi : s.i ≠ 0 := fun h0 => by rw [hout h0] at hout'; cases hout'
    unfold sendTo
    dsimp only
    split
    · rfl
    · exact Function.update_of_ne hi.symm _ _
  · rfl

/-! ## The table without removals -/

structure Good (s : Server) : Prop where
  listen_nonneg : 0 ≤ s.listenfd
  place_nonneg : 0 ≤ s.i
  place_le : s.i ≤ USER_LIMIT + 1
  counter : s.userCounter = (connected s.log).length
  room : s.userCounter ≤ USER_LIMIT
  entries : SwapRemove.entries (fun k => (s.fds (k + 1)).fd) (connected s.log).length =
    connected s.log
  clients : ∀ fd ∈ connected s.log, 0 ≤ fd ∧ fd ≠ s.listenfd
  nodup : (connected s.log).Nodup
  listen : (s.fds 0).fd = s.listenfd
  asked : (s.fds 0).events = POLLIN ||| POLLERR
  told : s.i = 0 → has (s.fds 0).revents POLLRDHUP = false ∧ has (s.fds 0).revents POLLOUT = false
  beyond : ∀ k, s.userCounter < k → k ≤ USER_LIMIT → (s.fds k).fd < 0
  silent : ∀ k, s.i ≤ k → 0 ≤ k → k ≤ USER_LIMIT → (s.fds k).fd < 0 → (s.fds k).revents = 0
  closed : ClosedOnce s.log

theorem Good.tidy (h : Good s) : Tidy s :=
  ⟨h.counter, .of_eq h.entries, h.nodup, h.listen, h.beyond, h.closed⟩

theorem good_start {users : ℤ → ClientData} {raw : ℤ → PollFd} {listenfd : ℤ} (hl : 0 ≤ listenfd)
    (hraw : (raw USER_LIMIT).fd < 0) : Good (start users raw listenfd) := by
  constructor
  · exact hl
  · show (0 : ℤ) ≤ USER_LIMIT + 1
    decide
  · exact le_rfl
  · rfl
  · show (0 : ℤ) ≤ USER_LIMIT
    decide
  · rfl
  · simp [start]
  · exact List.nodup_nil
  · rfl
  · rfl
  · intro h0
    cases h0
  · intro k h0 hk
    have h0' : 0 < k := h0
    show (if k = 0 then _ else if 1 ≤ k ∧ k < USER_LIMIT then _ else raw k).fd < 0
    rw [if_neg (by omega)]
    split_ifs with hlt
    · show (-1 : ℤ) < 0
      decide
    · obtain rfl : k = USER_LIMIT := by omega
      exact hraw
  · intro k hk _ hle
    have hk' : USER_LIMIT + 1 ≤ k := hk
    omega
  · exact throughout_nil

theorem good_poll (h : Good s) {revents : ℤ → UInt16} (hp : s.Polls revents) :
    Good (s.polled revents) := by
  constructor
  · rw [polled_listenfd]
    exact h.listen_nonneg
  · exact le_rfl
  · show (0 : ℤ) ≤ USER_LIMIT + 1
    decide
  · rw [polled_userCounter, polled_log]
    exact h.counter
  · rw [polled_userCounter]
    exact h.room
  · rw [polled_log]
    simp only [polled_fd]
    exact h.entries
  · rw [polled_log, polled_listenfd]
    exact h.clients
  · rw [polled_log]
    exact h.nodup
  · rw [polled_fd, polled_listenfd]
    exact h.listen
  · rw [polled_events]
    exact h.asked
  · intro _
    have hzero := hp 0 le_rfl (by decide)
    have hnonneg := h.listen_nonneg
    rw [if_neg (by rw [h.listen]; omega), h.asked] at hzero
    rw [polled_revents s revents le_rfl (by decide)]
    constructor
    · rw [Bool.eq_false_iff]
      exact fun hm => absurd (has_asked isBit_POLLRDHUP hzero hm) (by decide)
    · rw [Bool.eq_false_iff]
      exact fun hm => absurd (has_asked isBit_POLLOUT hzero hm) (by decide)
  · rw [polled_userCounter]
    simp only [polled_fd]
    exact h.beyond
  · intro k _ h0 hk hneg
    have hzero := hp k h0 hk
    rw [polled_fd] at hneg
    rw [if_pos hneg] at hzero
    rw [polled_revents s revents h0 hk, hzero]
  · rw [polled_log]
    exact h.closed

/-- A round of the scan that leaves the first entry as it is. -/
theorem Good.advance (h : Good s) (hi : s.i ≤ USER_LIMIT) (hlisten : t.listenfd = s.listenfd)
    (hti : t.i = s.i) (hzero : t.fds 0 = s.fds 0)
    (hcounter : t.userCounter = (connected t.log).length) (hroom : t.userCounter ≤ USER_LIMIT)
    (hentries : SwapRemove.entries (fun k => (t.fds (k + 1)).fd) (connected t.log).length =
      connected t.log)
    (hclients : ∀ fd ∈ connected t.log, 0 ≤ fd ∧ fd ≠ t.listenfd) (hnodup : (connected t.log).Nodup)
    (hbeyond : ∀ k, t.userCounter < k → k ≤ USER_LIMIT → (t.fds k).fd < 0)
    (hsilent : ∀ k, s.i < k → k ≤ USER_LIMIT → (t.fds k).fd < 0 → (t.fds k).revents = 0)
    (hclosed : ClosedOnce t.log) : Good { t with i := t.i + 1 } := by
  have hplace := h.place_nonneg
  constructor
  · show 0 ≤ t.listenfd
    rw [hlisten]
    exact h.listen_nonneg
  · show 0 ≤ t.i + 1
    rw [hti]
    omega
  · show t.i + 1 ≤ USER_LIMIT + 1
    rw [hti]
    omega
  · exact hcounter
  · exact hroom
  · exact hentries
  · exact hclients
  · exact hnodup
  · dsimp only
    rw [hzero, hlisten]
    exact h.listen
  · dsimp only
    rw [hzero]
    exact h.asked
  · intro h0
    have h0' : t.i + 1 = 0 := h0
    rw [hti] at h0'
    omega
  · exact hbeyond
  · intro k hk h0 hle
    have hk' : t.i + 1 ≤ k := hk
    rw [hti] at hk'
    exact hsilent k (by omega) hle
  · exact hclosed

/-- A round of the scan in which the clients stay. -/
theorem good_kept (h : Good s) (hi : s.i ≤ USER_LIMIT) (hsame : SameTable s t)
    (hclients : SameClients s t) (hzero : t.fds 0 = s.fds 0) :
    Good { t with i := t.i + 1 } := by
  have hlog := hclients.connected
  have hplace := h.place_nonneg
  apply h.advance hi hsame.listenfd hsame.i hzero
  · rw [hsame.userCounter, hlog]
    exact h.counter
  · rw [hsame.userCounter]
    exact h.room
  · rw [hlog]
    simp only [hsame.fd]
    exact h.entries
  · rw [hlog, hsame.listenfd]
    exact h.clients
  · rw [hlog]
    exact h.nodup
  · intro k hk hle
    rw [hsame.userCounter] at hk
    rw [hsame.fd]
    exact h.beyond k hk hle
  · intro k hk hle hneg
    rw [hsame.fd] at hneg
    rw [hsame.revents]
    exact h.silent k hk.le (by omega) hle hneg
  · exact hclients.closedOnce h.closed

/-- A round in which a client arrives. -/
theorem good_accepted (h : Good s) (hi : s.i ≤ USER_LIMIT) {fd : ℤ} (h0 : 0 ≤ fd)
    (hnew : fd ≠ s.listenfd ∧ fd ∉ connected s.log) (hroom : s.userCounter < USER_LIMIT)
    (ht : Accepted s t fd) : Good { t with i := t.i + 1 } := by
  have hplace := h.place_nonneg
  have hcounter := h.counter
  have hlog := ht.connected
  have hlen : (connected t.log).length = (connected s.log).length + 1 := by
    rw [hlog, List.length_append, List.length_singleton]
  have hat : ∀ k, k ≠ s.userCounter + 1 → t.fds k = s.fds k := fun k => ht.fds_of_ne
  have hnew' := ht.fds_last
  apply h.advance hi ht.listenfd ht.i (hat 0 (by omega))
  · rw [ht.userCounter, hlen, hcounter]
    push_cast
    rfl
  · rw [ht.userCounter]
    omega
  · rw [hlen, SwapRemove.entries_succ, hlog]
    congr 1
    · rw [SwapRemove.entries_congr fun k hk => congrArg PollFd.fd (hat (k + 1) (by omega))]
      exact h.entries
    · rw [← hcounter, hnew']
  · exact ht.clients h.clients h0 hnew.1
  · exact ht.nodup h.nodup hnew.2
  · intro k hk hle
    rw [ht.userCounter] at hk
    rw [hat k (by omega)]
    exact h.beyond k (by omega) hle
  · intro k hk hle hneg
    by_cases hkc : k = s.userCounter + 1
    · rw [hkc, hnew']
    · rw [hat k hkc] at hneg ⊢
      exact h.silent k hk.le (by omega) hle hneg
  · rw [ht.log]
    exact throughout_concat.2 ⟨h.closed, fun x hx => by cases hx⟩

theorem access_same (s : Server) (k : ℤ) : SameTable s (s.access k) :=
  .of_eq (by simp) (by simp) (by simp) (by simp)

theorem Good.access (h : Good s) (k : ℤ) : Good (s.access k) := by
  obtain ⟨h1, h2, h3, h4, h5, h6, h7, h8, h9, h10, h11, h12, h13, h14⟩ := h
  constructor <;> simpa

/-- A round without a removal keeps the table in order. -/
theorem good_scan (h : Good s) (hi : s.i ≤ USER_LIMIT) (ha : s.Answers r) (hrem : ¬ s.Removes r) :
    Good (s.scan r) := by
  -- the access to the entry changes nothing that matters here
  have hacc : (s.access s.i).Removes r ↔ s.Removes r := by simp [Removes]
  have hrem' : ¬ (s.access s.i).Removes r := fun h' => hrem (hacc.1 h')
  have hg := h.access s.i
  unfold scan
  generalize hs : s.access s.i = s' at hg hrem'
  have hi' : s'.i ≤ USER_LIMIT := by
    rw [← hs, access_i]
    exact hi
  have ha' : s'.Answers r := by
    rw [← hs]
    simpa [Answers] using ha
  by_cases hlisten : (s'.fds s'.i).fd = s'.listenfd ∧ has (s'.fds s'.i).revents POLLIN
  · rcases dispatch_accepts (r := r) hlisten.1 hlisten.2 with ⟨hfds, hsame, hclients⟩ | ⟨h0, hroom, ht⟩
    · exact good_kept hg hi' hsame hclients (by rw [hfds])
    · exact good_accepted hg hi' h0 (ha'.1 h0) hroom ht
  · obtain ⟨hsame, hclients⟩ := dispatch_kept hlisten hrem'
    refine good_kept hg hi' hsame hclients (dispatch_zero hlisten hrem' fun h0 => ?_)
    rw [h0]
    exact (hg.told h0).2

/-! ## The table after a removal -/

/-- The entries up to `last`, behind the end of the table, are copies of clients, and nothing is
behind them. -/
structure Stale (last : ℤ) (s : Server) : Prop where
  listen_nonneg : 0 ≤ s.listenfd
  place : 1 ≤ s.i
  counter : s.userCounter = (connected s.log).length
  lt : s.userCounter < last
  le : last ≤ USER_LIMIT
  copies : ∀ k, 1 ≤ k → k ≤ last → 0 ≤ (s.fds k).fd ∧ (s.fds k).fd ≠ s.listenfd
  silent : ∀ k, last < k → s.i ≤ k → k ≤ USER_LIMIT → (s.fds k).fd < 0 ∧ (s.fds k).revents = 0

/-- A descriptor has been closed twice, or there is something behind the table. -/
def Spoiled (s : Server) : Prop := ¬ ClosedOnce s.log ∨ ∃ last, Stale last s

theorem Spoiled.not_tidy (h : Spoiled s) : ¬ Tidy s := by
  intro ht
  rcases h with h | ⟨last, h⟩
  · exact h ht.closed
  · have hpos : 1 ≤ last := by
      have := h.counter
      have := h.lt
      omega
    have hneg := ht.beyond last h.lt h.le
    have hnonneg := (h.copies last hpos le_rfl).1
    omega

/-- An entry without events is passed over. -/
theorem not_removes_silent (h : (s.fds s.i).revents = 0) : ¬ s.Removes r := by
  rintro ⟨-, -, hup | ⟨hin, -⟩⟩
  · rw [h, has_zero] at hup
    cases hup
  · rw [h, has_zero] at hin
    cases hin

/-- A client is closed and the last one put in its place, with `last` clients or copies before. -/
theorem stale_removed {last : ℤ} (hl : 0 ≤ s.listenfd) (hplace : 1 ≤ s.i)
    (hcounter : s.userCounter = (connected s.log).length) (hle : s.userCounter ≤ last)
    (hlast : last ≤ USER_LIMIT)
    (hcopies : ∀ k, 1 ≤ k → k ≤ last → 0 ≤ (s.fds k).fd ∧ (s.fds k).fd ≠ s.listenfd)
    (hsilent : ∀ k, last < k → s.i ≤ k → k ≤ USER_LIMIT →
      (s.fds k).fd < 0 ∧ (s.fds k).revents = 0)
    (hi : s.i ≤ last) (ht : Removed s t) : Spoiled { t with i := t.i + 1 } := by
  by_cases hopen : (s.fds s.i).fd ∈ connected s.log
  · right
    have hpos := List.length_pos_of_mem hopen
    have hlen := List.length_erase_of_mem hopen
    refine ⟨last, ?_⟩
    constructor
    · show 0 ≤ t.listenfd
      rw [ht.listenfd]
      exact hl
    · show 1 ≤ t.i + 1
      rw [ht.i]
      omega
    · show t.userCounter = (connected t.log).length
      rw [ht.userCounter, ht.log, connected_closed, hlen, hcounter]
      push_cast [Nat.cast_sub hpos]
      rfl
    · show t.userCounter < last
      rw [ht.userCounter]
      omega
    · exact hlast
    · intro k h1 hk
      dsimp only
      rw [ht.fds, ht.listenfd]
      by_cases hki : k = s.i
      · rw [hki, Function.update_self]
        exact hcopies _ (by omega) hle
      · rw [Function.update_of_ne hki]
        exact hcopies k h1 hk
    · intro k hk hki hkl
      have hki' : t.i + 1 ≤ k := hki
      rw [ht.i] at hki'
      dsimp only
      rw [ht.fds, Function.update_of_ne (by omega)]
      exact hsilent k hk (by omega) hkl
  · left
    show ¬ ClosedOnce t.log
    rw [ht.log]
    exact fun hc => hopen ((throughout_concat.1 hc).2 _ rfl)

/-- The client that a round takes away stands in the table. -/
theorem Good.removes_place (h : Good s) (hi : s.i ≤ USER_LIMIT) (hrem : s.Removes r) :
    1 ≤ s.i ∧ s.i ≤ s.userCounter := by
  have hplace := h.place_nonneg
  constructor
  · by_contra hlt
    have h0 : s.i = 0 := by omega
    obtain ⟨hacc, -, hup | ⟨hin, -⟩⟩ := hrem
    · rw [h0, (h.told h0).1] at hup
      cases hup
    · rw [h0] at hacc hin
      exact hacc ⟨h.listen, hin⟩
  · by_contra hlt
    have hneg := h.beyond s.i (by omega) hi
    exact not_removes_silent (h.silent s.i le_rfl hplace hi hneg) hrem

theorem Good.client {k : ℤ} (h : Good s) (h1 : 1 ≤ k) (hk : k ≤ s.userCounter) :
    (s.fds k).fd ∈ connected s.log := by
  have hcounter := h.counter
  rw [← h.entries]
  refine SwapRemove.mem_entries.2 ⟨(k - 1).toNat, by omega, ?_⟩
  have : ((k - 1).toNat : ℤ) + 1 = k := by omega
  rw [this]

theorem Good.place_of_mem {fd : ℤ} (h : Good s) (hfd : fd ∈ connected s.log) :
    ∃ k, 1 ≤ k ∧ k ≤ s.userCounter ∧ (s.fds k).fd = fd := by
  have hcounter := h.counter
  rw [← h.entries] at hfd
  obtain ⟨i, hi, he⟩ := SwapRemove.mem_entries.1 hfd
  exact ⟨i + 1, by omega, by omega, he⟩

theorem Good.place_inj {j k : ℤ} (h : Good s) (hj1 : 1 ≤ j) (hj : j ≤ s.userCounter) (hk1 : 1 ≤ k)
    (hk : k ≤ s.userCounter) (he : (s.fds j).fd = (s.fds k).fd) : j = k := by
  have hcounter := h.counter
  have hnd := h.nodup
  rw [← h.entries] at hnd
  have hj' : ((j - 1).toNat : ℤ) + 1 = j := by omega
  have hk' : ((k - 1).toNat : ℤ) + 1 = k := by omega
  have := SwapRemove.entries_inj hnd (i := (j - 1).toNat) (j := (k - 1).toNat) (by omega) (by omega)
    (by rw [hj', hk', he])
  omega

/-- The round at the place of the scan, once its access is made. -/
theorem scan_eq (s : Server) (r : Replies) : ∃ s', SameTable s s' ∧ s'.fds = s.fds ∧ s'.log = s.log ∧
    s.scan r = { s'.dispatch r with i := (s'.dispatch r).i + 1 } :=
  ⟨s.access s.i, access_same s s.i, access_fds s s.i, access_log s s.i, rfl⟩

theorem spoiled_of_removes (h : Good s) (hi : s.i ≤ USER_LIMIT) (hrem : s.Removes r) :
    Spoiled (s.scan r) := by
  obtain ⟨h1, hle⟩ := h.removes_place hi hrem
  obtain ⟨s', hsame, hfds, hlog, heq⟩ := scan_eq s r
  have hrem' : s'.Removes r := by
    unfold Removes at hrem ⊢
    rwa [hfds, hsame.i, hsame.listenfd]
  have hcounter := h.counter
  have hroom := h.room
  rw [heq]
  refine stale_removed ?_ ?_ ?_ (le_refl s'.userCounter) ?_ ?_ ?_ ?_ (dispatch_removes hrem')
  · rw [hsame.listenfd]
    exact h.listen_nonneg
  · rw [hsame.i]
    exact h1
  · rw [hsame.userCounter, hlog]
    exact hcounter
  · rw [hsame.userCounter]
    exact hroom
  · intro k hk1 hk
    rw [hsame.userCounter] at hk
    rw [hfds, hsame.listenfd]
    exact h.clients _ (h.client hk1 hk)
  · intro k hk hki hkl
    rw [hsame.userCounter] at hk
    rw [hsame.i] at hki
    have hneg := h.beyond k hk hkl
    rw [hfds]
    exact ⟨hneg, h.silent k hki (by omega) hkl hneg⟩
  · rw [hsame.i, hsame.userCounter]
    exact hle

theorem spoiled_of_stale {last : ℤ} (h : Stale last s) (hi : s.i ≤ USER_LIMIT) :
    Spoiled (s.scan r) := by
  obtain ⟨s', hsame, hfds, hlog, heq⟩ := scan_eq s r
  have h' : Stale last s' := by
    obtain ⟨h1, h2, h3, h4, h5, h6, h7⟩ := h
    constructor
    · rwa [hsame.listenfd]
    · rwa [hsame.i]
    · rwa [hsame.userCounter, hlog]
    · rwa [hsame.userCounter]
    · exact h5
    · rwa [hfds, hsame.listenfd]
    · rwa [hfds, hsame.i]
  have hi' : s'.i ≤ USER_LIMIT := by
    rw [hsame.i]
    exact hi
  rw [heq]
  have hlisten := h'.listen_nonneg
  -- no entry from here on is that of the listening socket
  have hacc : ¬ ((s'.fds s'.i).fd = s'.listenfd ∧ has (s'.fds s'.i).revents POLLIN) := by
    rintro ⟨hfd, -⟩
    by_cases hle : s'.i ≤ last
    · exact (h'.copies s'.i h'.place hle).2 hfd
    · have := (h'.silent s'.i (by omega) le_rfl hi').1
      omega
  by_cases hrem : s'.Removes r
  · have hle : s'.i ≤ last := by
      by_contra hlt
      exact not_removes_silent (h'.silent s'.i (by omega) le_rfl hi').2 hrem
    exact stale_removed hlisten h'.place h'.counter h'.lt.le h'.le h'.copies h'.silent hle
      (dispatch_removes hrem)
  · obtain ⟨hkept, hclients⟩ := dispatch_kept hacc hrem
    refine .inr ⟨last, ?_⟩
    constructor
    · exact hkept.listenfd ▸ hlisten
    · have := h'.place
      show 1 ≤ (s'.dispatch r).i + 1
      rw [hkept.i]
      omega
    · show (s'.dispatch r).userCounter = (connected (s'.dispatch r).log).length
      rw [hkept.userCounter, hclients.connected]
      exact h'.counter
    · exact hkept.userCounter ▸ h'.lt
    · exact h'.le
    · intro k h1 hk
      dsimp only
      rw [hkept.fd, hkept.listenfd]
      exact h'.copies k h1 hk
    · intro k hk hki hkl
      have hki' : (s'.dispatch r).i + 1 ≤ k := hki
      rw [hkept.i] at hki'
      dsimp only
      rw [hkept.fd, hkept.revents]
      exact h'.silent k hk (by omega) hkl

/-- The log only grows. -/
theorem scan_log (s : Server) (r : Replies) :
    (s.scan r).log = s.log ∨ ∃ h, (s.scan r).log = s.log ++ [h] := by
  obtain ⟨s', hsame, hfds, hlog, heq⟩ := scan_eq s r
  rw [heq, ← hlog]
  by_cases hacc : (s'.fds s'.i).fd = s'.listenfd ∧ has (s'.fds s'.i).revents POLLIN
  · rcases dispatch_accepts (r := r) hacc.1 hacc.2 with ⟨-, -, h | ⟨x, h, -⟩⟩ | ⟨-, -, h⟩
    · exact .inl h
    · exact .inr ⟨x, h⟩
    · exact .inr ⟨_, h.log⟩
  · by_cases hrem : s'.Removes r
    · exact .inr ⟨_, (dispatch_removes hrem).log⟩
    · rcases (dispatch_kept hacc hrem).2 with h | ⟨x, h, -⟩
      · exact .inl h
      · exact .inr ⟨x, h⟩

/-- Until the scan has come to its end, nothing is mended. -/
theorem spoiled_scan (h : Spoiled s) (hi : s.i ≤ USER_LIMIT) : Spoiled (s.scan r) := by
  rcases h with h | ⟨last, h⟩
  · left
    rcases scan_log s r with hlog | ⟨x, hlog⟩
    · rwa [hlog]
    · rw [hlog]
      exact fun hc => h (throughout_concat.1 hc).1
  · exact spoiled_of_stale h hi

/-! ## Runs -/

theorem step_good (h : Good s) (hs : Step s a t) (hrem : ¬ a.Removes s) : Good t := by
  cases hs with
  | poll _ hp => exact good_poll h hp
  | scan hi ha => exact good_scan h hi ha hrem

theorem step_spoiled (h : Good s) (hs : Step s a t) (hrem : a.Removes s) : Spoiled t := by
  cases hs with
  | poll => exact absurd hrem id
  | scan hi _ => exact spoiled_of_removes h hi hrem

theorem step_unique {t' : Server} (hs : Step s a t) (hs' : Step s a t') : t = t' := by
  cases hs with
  | poll => cases hs' with | poll => rfl
  | scan => cases hs' with | scan => rfl

variable {acts : List Act}

/-- A scan with a removal ends with the table out of order. -/
theorem Spoiled.not_always (h : Spoiled s) (hr : Run Step s acts t) (hend : t.AtEnd) :
    ¬ Run.Always Step (fun s => s.AtEnd → s.Tidy) s acts := by
  induction hr with
  | nil s => exact fun hall => h.not_tidy (hall [] s List.prefix_rfl (.nil s) hend)
  | @cons s u t a as hs hr ih =>
    intro hall
    cases hs with
    | poll hat _ => exact h.not_tidy (hall [] s (List.nil_prefix) (.nil s) hat)
    | @scan r hi ha =>
      refine ih (spoiled_scan h hi) hend fun pre v hpre hv => ?_
      exact hall (_ :: pre) v (List.cons_prefix_cons.2 ⟨rfl, hpre⟩) (.cons (.scan hi ha) hv)

theorem Good.run_of_always (h : Good s) (hr : Run Step s acts t) (hend : t.AtEnd)
    (hall : Run.Always Step (fun s => s.AtEnd → s.Tidy) s acts) :
    Run (fun s a t => Step s a t ∧ ¬ a.Removes s) s acts t := by
  induction hr with
  | nil s => exact .nil s
  | @cons s u t a as hs hr ih =>
    have htail : Run.Always Step (fun s => s.AtEnd → s.Tidy) u as := fun pre v hpre hv =>
      hall (a :: pre) v (List.cons_prefix_cons.2 ⟨rfl, hpre⟩) (.cons hs hv)
    by_cases hrem : a.Removes s
    · exact absurd htail ((step_spoiled h hs hrem).not_always hr hend)
    · exact .cons ⟨hs, hrem⟩ (ih (step_good h hs hrem) hend htail)

theorem Good.always (h : Good s) (hr : Run (fun s a t => Step s a t ∧ ¬ a.Removes s) s acts t) :
    Run.Always Step Good s acts := by
  have hstep : Run Step s acts t := hr.mono fun _ _ _ hs => hs.1
  refine (hstep.always_iff (fun _ => True) Good (fun s a => ¬ a.Removes s) ?_ ?_ ?_ trivial h).2 hr
  · exact fun s a t t' hs hs' => step_unique hs hs'
  · exact fun _ _ _ _ _ => trivial
  · intro s a t _ h hs
    constructor
    · exact fun ht hrem => (step_spoiled h hs hrem).not_tidy ht.tidy
    · exact step_good h hs

end Server

/-- **The connection table.** In a run that ends with a scan, the table is in order after every scan
exactly when the memory behind the array holds no descriptor and no client is ever taken away. -/
theorem table_tidy {users : ℤ → ClientData} {raw : ℤ → PollFd} {listenfd : ℤ} {acts : List Act}
    {s : Server} (hl : 0 ≤ listenfd) (hr : Run Step (Server.start users raw listenfd) acts s)
    (hend : s.AtEnd) :
    Run.Always Step (fun s => s.AtEnd → s.Tidy) (Server.start users raw listenfd) acts ↔
      (raw USER_LIMIT).fd < 0 ∧
        Run (fun s a t => Step s a t ∧ ¬ a.Removes s) (Server.start users raw listenfd) acts s := by
  constructor
  · intro hall
    have htidy := hall [] _ List.nil_prefix (.nil _) rfl
    have hraw : (raw USER_LIMIT).fd < 0 := htidy.beyond USER_LIMIT (show (0 : ℤ) < USER_LIMIT by decide) le_rfl
    exact ⟨hraw, (Server.good_start hl hraw).run_of_always hr hend hall⟩
  · rintro ⟨hraw, hgood⟩ pre t hpre ht _
    exact ((Server.good_start hl hraw).always hgood pre t hpre ht).tidy

/-- A server whose arrays hold nothing that looks like a descriptor. -/
def Server.blank : Server := .start (fun _ => ⟨none, fun _ => NUL⟩) (fun _ => ⟨-1, 0, 0⟩) 3

/-- One `poll`, with the events of the first entries, and a scan in which the first round is that of the
listening socket, which gives the client `connfd`, and `rounds` more follow. -/
def pass (revents : List UInt16) (connfd : ℤ) (x : Received) (rounds : ℕ) : List Act :=
  .poll (fun k => if k < 0 then 0 else revents.getD k.toNat 0) ::
    .scan ⟨connfd, .eof, 0⟩ :: List.replicate rounds (.scan ⟨-1, x, BUFFER_SIZE⟩)

/-- A client arrives and sends a line. -/
theorem table_tidy_one :
    let acts := pass [POLLIN] 4 .eof 5 ++ pass [0, POLLIN] (-1) (.data [104, 105]) 5
    Run.Always Step (fun s => s.AtEnd → s.Tidy) Server.blank acts := by
  intro acts
  have hr : Run (fun s a t => Step s a t ∧ ¬ a.Removes s) Server.blank acts
      (acts.foldl Server.exec Server.blank) := by
    refine Run.of_permits (fun s a h => ?_) (by decide +kernel : Run.permits
      (fun s a => s.allows a && decide (¬ a.Removes s)) Server.exec Server.blank acts = true)
    obtain ⟨ha, hrem⟩ := Bool.and_eq_true_iff.1 h
    exact ⟨s.step_exec a ha, of_decide_eq_true hrem⟩
  have hend : (acts.foldl Server.exec Server.blank).AtEnd := by decide +kernel
  exact (table_tidy (by decide) (hr.mono fun _ _ _ hs => hs.1) hend).2 ⟨by decide, hr⟩

/-- A client arrives and hangs up: it is removed twice. -/
theorem table_untidy : ¬ ∀ (users : ℤ → ClientData) (raw : ℤ → PollFd) (listenfd : ℤ) (acts : List Act)
    (s : Server), 0 ≤ listenfd → (raw USER_LIMIT).fd < 0 →
      Run Step (Server.start users raw listenfd) acts s → s.AtEnd → s.Tidy := by
  intro hall
  let acts := pass [POLLIN] 4 .eof 5 ++ pass [0, POLLRDHUP] (-1) .eof 7
  have hr : Run Step Server.blank acts (acts.foldl Server.exec Server.blank) :=
    Run.of_permits Server.step_exec (by decide +kernel)
  have hend : (acts.foldl Server.exec Server.blank).AtEnd := by decide +kernel
  have hcounter := (hall _ _ _ acts _ (by decide) (by decide) hr hend).counter
  exact absurd hcounter (by decide +kernel)

end SocketTest.ChatServer
