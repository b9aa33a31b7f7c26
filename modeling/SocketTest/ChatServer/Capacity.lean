import SocketTest.ChatServer.Table

/-!
# The size of the table

`fds` has `USER_LIMIT` entries, with the listening socket in the first one. `poll` and the scan go over one
more, and the test for a full table lets a client in that has no entry: `capacity_never` and
`refused_iff`.
-/

namespace SocketTest.ChatServer

open SocketTest.Lib

namespace Server

/-- `accept` gives a client. -/
def Arrives (s : Server) (r : Replies) : Prop :=
  (s.fds s.i).fd = s.listenfd ∧ has (s.fds s.i).revents POLLIN ∧ 0 ≤ r.connfd

instance decidableArrives (s : Server) (r : Replies) : Decidable (s.Arrives r) :=
  inferInstanceAs (Decidable (_ ∧ _))

/-- No entry is free. -/
def Full (s : Server) : Prop := USER_LIMIT - 1 ≤ s.userCounter

instance decidableFull (s : Server) : Decidable s.Full := inferInstanceAs (Decidable (_ ≤ _))

end Server

/-- A client that arrives when no entry is free is refused, and the table stays as it is. -/
def Refuses (s : Server) (a : Act) (t : Server) : Prop :=
  ∀ r, a = .scan r → s.Arrives r → s.Full →
    t.fds = s.fds ∧ t.userCounter = s.userCounter ∧ t.log = s.log ++ [.refused r.connfd]

/-- All accesses are to entries of `fds`, and clients without one are refused. -/
structure Capacity (s₀ : Server) (acts : List Act) : Prop where
  inside : Run.Always Step (fun s => s.faults = []) s₀ acts
  refused : Run.Each Step Refuses s₀ acts

/-- No client arrives when there are `USER_LIMIT - 1`, whom the test would let in. -/
def NotLast (s : Server) (a : Act) (_ : Server) : Prop :=
  ∀ r, a = .scan r → s.Arrives r → s.userCounter ≠ USER_LIMIT - 1

namespace Server

variable {s t : Server} {a : Act} {r : Replies} {acts : List Act}

theorem access_faults {k : ℤ} (h : ¬ (0 ≤ k ∧ k < USER_LIMIT)) : (s.access k).faults ≠ [] := by
  unfold access
  rw [if_neg h]
  exact List.append_ne_nil_of_right_ne_nil _ (List.cons_ne_nil _ _)

/-- The last entry that `poll` goes over lies behind the array. -/
theorem polled_faults (s : Server) (revents : ℤ → UInt16) : (s.polled revents).faults ≠ [] :=
  access_faults (k := USER_LIMIT) fun h => lt_irrefl _ h.2

theorem scan_arrives (h : s.Arrives r) :
    s.scan r = { (s.access s.i).acceptClient r.connfd with
      i := ((s.access s.i).acceptClient r.connfd).i + 1 } := by
  have hdispatch : (s.access s.i).dispatch r = (s.access s.i).acceptClient r.connfd := by
    unfold dispatch
    dsimp only
    rw [access_i, access_fds, access_listenfd, if_pos ⟨h.1, h.2.1⟩]
  unfold scan
  dsimp only
  rw [hdispatch]

theorem refuses_iff (hs : Step s a t) : Refuses s a t ↔ NotLast s a t := by
  constructor
  · rintro h r rfl harr hlast
    obtain ⟨-, hcounter, -⟩ := h r rfl harr hlast.ge
    cases hs
    have hroom : (s.access s.i).userCounter < USER_LIMIT := by
      rw [access_userCounter]
      omega
    have hnew := (acceptClient_accepted harr.2.2 hroom).1.userCounter
    rw [scan_arrives harr] at hcounter
    dsimp only at hcounter
    rw [hnew, access_userCounter] at hcounter
    omega
  · rintro h r rfl harr hfull
    have hlast := h r rfl harr
    unfold Full at hfull
    cases hs
    have hrefused : (s.access s.i).acceptClient r.connfd =
        (s.access s.i).note (.refused r.connfd) := by
      unfold acceptClient
      rw [if_neg (not_lt.2 harr.2.2), access_userCounter, if_pos (by omega)]
    rw [scan_arrives harr, hrefused]
    unfold note
    dsimp only
    rw [access_fds, access_userCounter, access_log]
    exact ⟨rfl, rfl, rfl⟩

end Server

section

variable {users : ℤ → ClientData} {raw : ℤ → PollFd} {listenfd : ℤ} {acts : List Act} {s : Server}

/-- Which clients are refused as they should be: all, when none arrives with `USER_LIMIT - 1` connected. -/
theorem refused_iff (s : Server) (acts : List Act) :
    Run.Each Step Refuses s acts ↔ Run.Each Step NotLast s acts :=
  Run.Each.congr fun _ _ _ => Server.refuses_iff

/-- **The capacity of the table.** No run in which `poll` returns keeps to the array. -/
theorem capacity_never (hr : Run Step (Server.start users raw listenfd) acts s) (hne : acts ≠ []) :
    ¬ Capacity (Server.start users raw listenfd) acts := by
  intro h
  cases hr with
  | nil => exact hne rfl
  | @cons _ t _ a as hs hr =>
    have hclean := h.inside [a] t (List.cons_prefix_cons.2 ⟨rfl, List.nil_prefix⟩) (.single hs)
    cases hs with
    | poll => exact Server.polled_faults _ _ hclean
    | scan hi _ => exact absurd (show USER_LIMIT + 1 ≤ USER_LIMIT from hi) (by decide)

end

theorem capacity_never_one : ¬ Capacity Server.blank (pass [POLLIN] 4 .eof 5) :=
  capacity_never (Run.of_permits Server.step_exec (by decide +kernel)) (List.cons_ne_nil _ _)

/-- Four clients have arrived, and there is a fifth. -/
def fourArrived : List Act :=
  pass [POLLIN] 4 .eof 5 ++ pass [POLLIN] 5 .eof 5 ++ pass [POLLIN] 6 .eof 5 ++ pass [POLLIN] 7 .eof 5 ++
    [.poll fun k => if k = 0 then POLLIN else 0]

/-- The fifth client gets the entry behind the array. -/
theorem fifth_accepted : ¬ Capacity Server.blank (fourArrived ++ [.scan ⟨8, .eof, 0⟩]) := by
  intro h
  have hr : Run Step Server.blank fourArrived (fourArrived.foldl Server.exec Server.blank) :=
    Run.of_permits Server.step_exec (by decide +kernel)
  obtain ⟨-, hcounter, -⟩ := h.refused fourArrived (.scan ⟨8, .eof, 0⟩) [] _ _ rfl hr
    (Server.step_exec _ _ (by decide +kernel)) _ rfl (by decide +kernel) (by decide +kernel)
  exact absurd hcounter (by decide +kernel)

end SocketTest.ChatServer
