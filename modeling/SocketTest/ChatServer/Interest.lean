import SocketTest.ChatServer.Broadcast

/-!
# What the entries ask for

A mask is changed with `|= ~POLLIN` and `|= ~POLLOUT`, which set all other bits and clear none, so that a
client that has once been offered a message asks for everything from then on. The record of a descriptor
keeps the `write_buf` of the client before. `masks_kept` is about the runs in which neither shows: the
entry of every client then asks for input, as it did at first.

1. The masks as they should be, and the steps that leave them so.
2. `Idle`, through the branches of the scan.
3. `masks_kept` and a run in which a message is offered.
-/

namespace SocketTest.ChatServer

open SocketTest.Lib

/-- The mask goes with the message that is to be sent. -/
structure Asks (mask : UInt16) (writeBuf : Option ℤ) : Prop where
  output : has mask POLLOUT = writeBuf.isSome
  input : has mask POLLIN = writeBuf.isNone
  hangUp : has mask POLLRDHUP = true
  error : has mask POLLERR = true
  only : mask &&& ~~~(POLLIN ||| POLLOUT ||| POLLRDHUP ||| POLLERR) = 0

namespace Server

/-- `fds[k]` is an entry of the array, or the one behind it that a client has been given. -/
def InTable (s : Server) (k : ℤ) : Prop := 0 ≤ k ∧ (k < USER_LIMIT ∨ k ≤ s.userCounter)

/-- Every entry of a client has its mask. -/
def Interested (s : Server) : Prop :=
  ∀ k, s.InTable k → (s.fds k).fd ∈ connected s.log →
    Asks (s.fds k).events (s.users (s.fds k).fd).writeBuf

/-- The round takes the client that `accept` gives. -/
def Accepts (s : Server) (r : Replies) : Prop :=
  (s.fds s.i).fd = s.listenfd ∧ has (s.fds s.i).revents POLLIN ∧ 0 ≤ r.connfd ∧
    s.userCounter < USER_LIMIT

instance decidableAccepts (s : Server) (r : Replies) : Decidable (s.Accepts r) :=
  inferInstanceAs (Decidable (_ ∧ _))

/-- The round receives a message. -/
def Hears (s : Server) (r : Replies) : Prop :=
  s.Receives ∧ r.received ≠ .eof ∧ ∀ again, r.received ≠ .error again

instance decidableReceives (s : Server) : Decidable s.Receives :=
  inferInstanceAs (Decidable (_ ∧ _ ∧ _ ∧ _))

instance decidableHears (s : Server) (r : Replies) : Decidable (s.Hears r) :=
  inferInstanceAs (Decidable (_ ∧ _))

/-- The broadcast loop would come to a client that is not the one at the place of the scan. -/
def Offers (s : Server) : Prop :=
  ∃ k < (s.userCounter - 1).toNat, (s.fds ((k : ℤ) + 1)).fd ≠ (s.fds s.i).fd

instance decidableOffers (s : Server) : Decidable s.Offers := inferInstanceAs (Decidable (∃ _ < _, _))

end Server

/-- The step offers no message, a client that it accepts has none, and a client is taken away only when
there is a last one to put in its place. -/
def Act.Quiet (s : Server) : Act → Prop
  | .poll _ => True
  | .scan r => ¬ (s.Hears r ∧ s.Offers) ∧ (s.Accepts r → (s.users r.connfd).writeBuf = none) ∧
      (s.Removes r → 0 ≤ s.userCounter)

instance Act.decidableQuiet (s : Server) : (a : Act) → Decidable (a.Quiet s)
  | .poll _ => .isTrue trivial
  | .scan r => inferInstanceAs (Decidable (_ ∧ (s.Accepts r → _) ∧ (s.Removes r → _)))

namespace Server

variable {s t u : Server} {r : Replies} {a : Act} {acts : List Act}

/-! ## The invariant -/

/-- Every client asks for input only, and none has a message. -/
structure Idle (s : Server) : Prop where
  room : s.userCounter ≤ USER_LIMIT
  mask : ∀ k, s.InTable k → 0 ≤ (s.fds k).fd → (s.fds k).events =
    if (s.fds k).fd = s.listenfd then POLLIN ||| POLLERR else POLLIN ||| POLLRDHUP ||| POLLERR
  told : ∀ k, s.InTable k → 0 ≤ (s.fds k).fd → has (s.fds k).revents POLLOUT = false
  clients : ∀ fd ∈ connected s.log, 0 ≤ fd ∧ fd ≠ s.listenfd
  nodup : (connected s.log).Nodup
  unsent : ∀ fd ∈ connected s.log, (s.users fd).writeBuf = none

theorem asks_idle : Asks (POLLIN ||| POLLRDHUP ||| POLLERR) none := by
  constructor <;> decide

theorem Idle.interested (h : Idle s) : s.Interested := by
  intro k htable hk
  obtain ⟨hnonneg, hne⟩ := h.clients _ hk
  rw [h.mask k htable hnonneg, if_neg hne, h.unsent _ hk]
  exact asks_idle

/-- A branch that makes no new entry and no new client, and gives no client a message. -/
structure Kept (s t : Server) : Prop where
  counter : t.userCounter ≤ s.userCounter
  fds : ∀ k, t.InTable k → 0 ≤ (t.fds k).fd → ∃ j, s.InTable j ∧ t.fds k = s.fds j
  listenfd : t.listenfd = s.listenfd
  clients : (connected t.log).Sublist (connected s.log)
  unsent : ∀ fd ∈ connected t.log, (t.users fd).writeBuf = (s.users fd).writeBuf

theorem InTable.mono {k : ℤ} (h : t.InTable k) (hle : t.userCounter ≤ s.userCounter) :
    s.InTable k := ⟨h.1, h.2.imp_right hle.trans'⟩

theorem Kept.of_eq (hcounter : t.userCounter = s.userCounter) (hfds : t.fds = s.fds)
    (hlisten : t.listenfd = s.listenfd) (hclients : connected t.log = connected s.log)
    (hunsent : ∀ fd, (t.users fd).writeBuf = (s.users fd).writeBuf) : Kept s t :=
  ⟨hcounter.le, fun k hk _ => ⟨k, hk.mono hcounter.le, congrFun hfds k⟩, hlisten,
    hclients ▸ List.Sublist.refl _, fun fd _ => hunsent fd⟩

theorem Kept.trans (h : Kept s t) (h' : Kept t u) : Kept s u := by
  refine ⟨h'.counter.trans h.counter, fun k hk hnonneg => ?_, h'.listenfd.trans h.listenfd,
    h'.clients.trans h.clients, fun fd hfd => ?_⟩
  · obtain ⟨j, hj, heq⟩ := h'.fds k hk hnonneg
    rw [heq] at hnonneg ⊢
    exact h.fds j hj hnonneg
  · exact (h'.unsent fd hfd).trans (h.unsent fd (h'.clients.subset hfd))

theorem Idle.kept (h : Idle s) (hk : Kept s t) : Idle t := by
  constructor
  · exact hk.counter.trans h.room
  · intro k htable hnonneg
    obtain ⟨j, hj, heq⟩ := hk.fds k htable hnonneg
    rw [heq] at hnonneg ⊢
    rw [hk.listenfd]
    exact h.mask j hj hnonneg
  · intro k htable hnonneg
    obtain ⟨j, hj, heq⟩ := hk.fds k htable hnonneg
    rw [heq] at hnonneg ⊢
    exact h.told j hj hnonneg
  · intro fd hfd
    rw [hk.listenfd]
    exact h.clients fd (hk.clients.subset hfd)
  · exact h.nodup.sublist hk.clients
  · intro fd hfd
    rw [hk.unsent fd hfd]
    exact h.unsent fd (hk.clients.subset hfd)

/-! ## The branches -/

theorem kept_remove (h : Idle s) (hlast : 0 ≤ s.userCounter) : Kept s s.remove := by
  obtain ⟨hfds, hcounter, hlisten, -, hlog⟩ := remove_removed s
  have hle : s.remove.userCounter ≤ s.userCounter := by omega
  have hclients : connected s.remove.log = (connected s.log).erase (s.fds s.i).fd := by
    rw [hlog, connected_closed]
  refine ⟨hle, fun k hk _ => ?_, hlisten, hclients ▸ List.erase_sublist, fun fd hfd => ?_⟩
  · rw [hfds]
    by_cases hki : k = s.i
    · exact ⟨s.userCounter, ⟨hlast, .inr le_rfl⟩, by rw [hki, Function.update_self]⟩
    · exact ⟨k, hk.mono hle, Function.update_of_ne hki _ _⟩
  · -- the record that is written is that of the client closed
    rw [hclients] at hfd
    have hne : fd ≠ (s.fds s.i).fd := (h.nodup.mem_erase_iff.1 hfd).1
    unfold remove
    simp [note, setUser, Function.update_of_ne hne]

theorem kept_setBuf (s : Server) (fd : ℤ) (message : List UInt8) : Kept s (s.setBuf fd message) := by
  refine .of_eq rfl rfl rfl rfl fun fd' => ?_
  unfold setBuf setUser
  dsimp only
  by_cases hfd : fd' = fd
  · rw [hfd, Function.update_self]
  · rw [Function.update_of_ne hfd]

theorem access_with (s : Server) (k : ℤ) : ∃ faults, s.access k = { s with faults := faults } := by
  unfold access
  split_ifs
  · exact ⟨s.faults, rfl⟩
  · exact ⟨_, rfl⟩

/-- The sender is not offered its own message. -/
theorem broadcast_silent {connfd : ℤ}
    (hsame : ∀ k < (s.userCounter - 1).toNat, (s.fds ((k : ℤ) + 1)).fd = connfd) :
    ∃ faults, s.broadcast connfd = { s with faults := faults } := by
  unfold broadcast
  generalize (s.userCounter - 1).toNat = n at hsame
  induction n with
  | zero => exact ⟨s.faults, rfl⟩
  | succ n ih =>
    obtain ⟨faults, hn⟩ := ih fun k hk => hsame k (Nat.lt_succ_of_lt hk)
    rw [List.range_succ, List.foldl_append, hn]
    show ∃ faults', offer { s with faults := faults } connfd (n + 1) = _
    rw [offer, if_pos (hsame n (Nat.lt_succ_self n))]
    exact access_with { s with faults := faults } _

theorem kept_receive (h : Idle s) (hoffers : (∃ m, r.received = .data m) → ¬ s.Offers)
    (hlast : r.received = .error false → 0 ≤ s.userCounter) :
    Kept s (s.receive r.received) := by
  unfold receive
  cases hr : r.received with
  | data m =>
    have hsame : ∀ k < (s.userCounter - 1).toNat, (s.fds ((k : ℤ) + 1)).fd = (s.fds s.i).fd := by
      intro k hk
      by_contra hne
      exact hoffers ⟨m, hr⟩ ⟨k, hk, hne⟩
    have hnoted : Kept s ((s.setBuf (s.fds s.i).fd m).note (.received (s.fds s.i).fd m)) :=
      (kept_setBuf s _ m).trans (.of_eq rfl rfl rfl (connected_received _ _ _) fun _ => rfl)
    obtain ⟨faults, hsilent⟩ := @broadcast_silent
      ((s.setBuf (s.fds s.i).fd m).note (.received (s.fds s.i).fd m)) (s.fds s.i).fd hsame
    dsimp only
    rw [hsilent]
    exact hnoted.trans (.of_eq rfl rfl rfl rfl fun _ => rfl)
  | eof => exact kept_setBuf s _ []
  | error again =>
    have hbuf := kept_setBuf s (s.fds s.i).fd []
    cases again with
    | true => exact hbuf
    | false => exact hbuf.trans (kept_remove (h.kept hbuf) (hlast hr))

/-- There is nothing to be sent to a client. -/
theorem kept_sendTo (h : Idle s) (hout : has (s.fds s.i).revents POLLOUT) (taken : ℕ) :
    Kept s (s.sendTo taken) := by
  unfold sendTo
  dsimp only
  cases hmessage : (s.users (s.fds s.i).fd).writeBuf with
  | none => exact .of_eq rfl rfl rfl rfl fun _ => rfl
  | some owner =>
    have hnot : (s.fds s.i).fd ∉ connected s.log := by
      intro hmem
      rw [h.unsent _ hmem] at hmessage
      cases hmessage
    dsimp only
    refine ⟨?_, fun k hk hnonneg => ⟨k, ?_, ?_⟩, ?_, ?_, fun fd hfd => ?_⟩
    · rw [setFd_userCounter]
      rfl
    · exact hk.mono (setFd_userCounter _ _ _).le
    · have hki : k ≠ s.i := by
        rintro rfl
        rw [setFd_fds, Function.update_self] at hnonneg
        rw [h.told s.i (hk.mono (setFd_userCounter _ _ _).le) hnonneg] at hout
        cases hout
      rw [setFd_fds, Function.update_of_ne hki]
      rfl
    · rw [setFd_listenfd]
      rfl
    · rw [setFd_log]
      unfold setUser note
      rw [connected_sent]
    · rw [setFd_log] at hfd
      unfold setUser note at hfd
      rw [connected_sent] at hfd
      rw [setFd_users]
      exact congrArg ClientData.writeBuf
        (Function.update_of_ne (ne_of_mem_of_not_mem hfd hnot) _ _)

/-- A client is put behind the others. -/
theorem Idle.accepted (h : Idle s) {fd : ℤ} (hacc : Accepted s t fd) (husers : t.users = s.users)
    (hroom : s.userCounter < USER_LIMIT) (hnonneg : 0 ≤ fd)
    (hnew : fd ≠ s.listenfd ∧ fd ∉ connected s.log) (hnone : (s.users fd).writeBuf = none) :
    Idle t := by
  have hold : ∀ k, t.InTable k → k ≠ s.userCounter + 1 → s.InTable k := by
    rintro k ⟨h0, hk⟩ hne
    rw [hacc.userCounter] at hk
    exact ⟨h0, by omega⟩
  constructor
  · rw [hacc.userCounter]
    omega
  · intro k htable hk
    rw [hacc.listenfd]
    by_cases hlast : k = s.userCounter + 1
    · rw [hlast, hacc.fds_last, if_neg hnew.1]
    · rw [hacc.fds_of_ne hlast] at hk ⊢
      exact h.mask k (hold k htable hlast) hk
  · intro k htable hk
    by_cases hlast : k = s.userCounter + 1
    · rw [hlast, hacc.fds_last]
      exact has_zero _
    · rw [hacc.fds_of_ne hlast] at hk ⊢
      exact h.told k (hold k htable hlast) hk
  · exact hacc.clients h.clients hnonneg hnew.1
  · exact hacc.nodup h.nodup hnew.2
  · rw [hacc.connected, husers]
    intro x hx
    rcases List.mem_append.1 hx with hx | hx
    · exact h.unsent x hx
    · rw [List.mem_singleton.1 hx]
      exact hnone

theorem Idle.dispatch (h : Idle s) (ha : s.Answers r) (hquiet : Act.Quiet s (.scan r)) :
    Idle (s.dispatch r) := by
  obtain ⟨hoffers, hnone, hlast⟩ := hquiet
  unfold Server.dispatch
  dsimp only
  split_ifs with hlisten herr hup hin hout
  · by_cases hnew : 0 ≤ r.connfd ∧ s.userCounter < USER_LIMIT
    · obtain ⟨hacc, husers⟩ := acceptClient_accepted hnew.1 hnew.2
      exact h.accepted hacc husers hnew.2 hnew.1 (ha.1 hnew.1) (hnone ⟨hlisten.1, hlisten.2, hnew⟩)
    · rcases acceptClient_other hnew with heq | heq
      · rwa [heq]
      · rw [heq]
        exact h.kept (.of_eq rfl rfl rfl (connected_refused _ _) fun _ => rfl)
  · exact h
  · exact h.kept (kept_remove h (hlast ⟨hlisten, herr, .inl hup⟩))
  · refine h.kept (kept_receive h ?_ fun hr => hlast ⟨hlisten, herr, .inr ⟨hin, hr⟩⟩)
    rintro ⟨m, hm⟩ hoffer
    exact hoffers ⟨⟨⟨hlisten, herr, hup, hin⟩, by rw [hm]; nofun, by rw [hm]; nofun⟩, hoffer⟩
  · exact h.kept (kept_sendTo h hout r.taken)
  · exact h

theorem Idle.polled (h : Idle s) {revents : ℤ → UInt16} (hp : s.Polls revents) :
    Idle (s.polled revents) := by
  have hcounter := polled_userCounter s revents
  constructor
  · rw [polled_userCounter]
    exact h.room
  · intro k htable hk
    rw [polled_fd] at hk
    rw [polled_fd, polled_events, polled_listenfd]
    exact h.mask k (htable.mono hcounter.le) hk
  · intro k htable hk
    have htable' : s.InTable k := htable.mono hcounter.le
    have hle : k ≤ USER_LIMIT := htable'.2.elim le_of_lt fun hle => hle.trans h.room
    have hzero := hp k htable'.1 hle
    rw [polled_fd] at hk
    rw [if_neg (not_lt.2 hk), h.mask k htable' hk] at hzero
    rw [polled_revents s revents htable'.1 hle, Bool.eq_false_iff]
    intro hm
    have hasked := has_asked isBit_POLLOUT hzero hm
    split_ifs at hasked
    · exact absurd hasked (by decide)
    · exact absurd hasked (by decide)
  · rw [polled_log, polled_listenfd]
    exact h.clients
  · rw [polled_log]
    exact h.nodup
  · rw [polled_log, polled_users]
    exact h.unsent

theorem Idle.step (h : Idle s) (hs : Step s a t) (hquiet : a.Quiet s) : Idle t := by
  cases hs with
  | poll _ hp => exact h.polled hp
  | @scan r _ ha =>
    obtain ⟨faults, haccess⟩ := access_with s s.i
    have hi : Idle (s.access s.i) := by
      rw [haccess]
      exact h.kept (.of_eq rfl rfl rfl rfl fun _ => rfl)
    have hdispatch : Idle ((s.access s.i).dispatch r) := by
      rw [haccess] at hi ⊢
      exact hi.dispatch ha hquiet
    exact hdispatch.kept (.of_eq rfl rfl rfl rfl fun _ => rfl)

/-! ## Runs -/

theorem idle_start (users : ℤ → ClientData) (raw : ℤ → PollFd) (listenfd : ℤ) :
    Idle (start users raw listenfd) := by
  have hother : ∀ k, (start users raw listenfd).InTable k → k ≠ 0 →
      ((start users raw listenfd).fds k).fd < 0 := by
    rintro k ⟨h0, hk⟩ hne
    have hlt : k < USER_LIMIT := hk.elim id fun hle => by
      have hzero : k ≤ 0 := hle
      omega
    show (if k = 0 then _ else if 1 ≤ k ∧ k < USER_LIMIT then _ else raw k : PollFd).fd < 0
    rw [if_neg hne, if_pos ⟨by omega, hlt⟩]
    show (-1 : ℤ) < 0
    decide
  constructor
  · show (0 : ℤ) ≤ USER_LIMIT
    decide
  · intro k htable hk
    by_cases h0 : k = 0
    · subst h0
      exact (if_pos rfl).symm
    · exact absurd hk (not_le.2 (hother k htable h0))
  · intro k htable hk
    by_cases h0 : k = 0
    · subst h0
      exact has_zero _
    · exact absurd hk (not_le.2 (hother k htable h0))
  · nofun
  · exact List.nodup_nil
  · nofun

end Server

/-- **What the entries ask for.** In a run in which no message is offered to another client, no client
that is accepted has one in its record, and none is taken away from an empty table, every client asks for
what it should. -/
theorem masks_kept {users : ℤ → ClientData} {raw : ℤ → PollFd} {listenfd : ℤ} {acts : List Act}
    {s : Server} (hr : Run (fun s a t => Step s a t ∧ a.Quiet s) (Server.start users raw listenfd) acts s) :
    s.Interested := by
  have hidle := hr.invariant (I := Server.Idle) (fun _ _ _ h hs => h.step hs.1 hs.2)
    (Server.idle_start users raw listenfd)
  exact hidle.interested

/-- A client that is alone sends a line. -/
theorem masks_kept_one :
    ((pass [POLLIN] 4 .eof 5 ++ pass [0, POLLIN] (-1) (.data [104, 105]) 5).foldl Server.exec
      Server.blank).Interested := by
  refine masks_kept (Run.of_permits (fun s a h => ?_) (by decide +kernel : Run.permits
    (fun s a => s.allows a && decide (a.Quiet s)) Server.exec Server.blank _ = true))
  obtain ⟨ha, hquiet⟩ := Bool.and_eq_true_iff.1 h
  exact ⟨s.step_exec a ha, of_decide_eq_true hquiet⟩

/-! ## A message for another client -/

namespace Server

theorem not_asks_of_hup {mask : UInt16} {writeBuf : Option ℤ} (h : has mask POLLHUP) :
    ¬ Asks mask writeBuf := fun ha =>
  absurd (has_asked ⟨4, by decide, rfl⟩ ha.only h) (by decide)

/-- Neither of the two ways to change a mask gives one that is as it should be. -/
theorem changed_not_asks (mask : UInt16) (writeBuf : Option ℤ) :
    ¬ Asks ((mask ||| ~~~POLLIN) ||| POLLOUT) writeBuf ∧
      ¬ Asks ((mask ||| ~~~POLLOUT) ||| POLLIN) writeBuf := by
  have hbit : IsBit POLLHUP := ⟨4, by decide, rfl⟩
  constructor
  · refine not_asks_of_hup ?_
    have hin : has POLLIN POLLHUP = false := by decide
    rw [has_or hbit, has_or hbit, has_not hbit, hin, Bool.not_false, Bool.or_true, Bool.true_or]
  · refine not_asks_of_hup ?_
    have hout : has POLLOUT POLLHUP = false := by decide
    rw [has_or hbit, has_or hbit, has_not hbit, hout, Bool.not_false, Bool.or_true, Bool.true_or]

end Server

/-- Of two clients one sends a line; the other has it to send then, and asks for everything. -/
theorem masks_lost : ¬ ∀ (users : ℤ → ClientData) (raw : ℤ → PollFd) (listenfd : ℤ) (acts : List Act)
    (s : Server), (∀ fd, (users fd).writeBuf = none) → (∀ k, (raw k).fd < 0) →
      Run Step (Server.start users raw listenfd) acts s → s.AtEnd → s.Interested := by
  intro hall
  let acts := pass [POLLIN] 4 .eof 5 ++ pass [POLLIN] 5 .eof 5 ++
    pass [0, 0, POLLIN] (-1) (.data [104, 105]) 5
  have hr : Run Step Server.blank acts (acts.foldl Server.exec Server.blank) :=
    Run.of_permits Server.step_exec (by decide +kernel)
  have hend : (acts.foldl Server.exec Server.blank).AtEnd := by decide +kernel
  have hclient : ((acts.foldl Server.exec Server.blank).fds 1).fd ∈
      connected (acts.foldl Server.exec Server.blank).log := by decide +kernel
  have hasks := hall _ _ _ acts _ (fun _ => rfl) (fun _ => (by decide : (-1 : ℤ) < 0)) hr hend 1
    ⟨by decide, .inl (by decide)⟩ hclient
  exact Server.not_asks_of_hup (by decide +kernel) hasks

end SocketTest.ChatServer
