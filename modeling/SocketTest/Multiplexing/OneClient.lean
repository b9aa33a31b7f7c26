import SocketTest.Multiplexing.EpollRest

/-!
# The loops of `poll.cc` and `select.cc`

`test_poll` and `test1` serve one connection, and `poll` and `select` do not fail. Both answer what
they have read with "OK", normal data before urgent data. `test_poll` looks at `POLLRDHUP` before it
reads, and `test1` comes to know of the end of the connection when `recv` returns no bytes. A reset
that comes behind a FIN, as the answer of a peer that has closed to an "OK", makes the next `send` a
`SIGPIPE`. What is sent has room.

1. The loops, the peer, and the reset behind a FIN.
2. `Inv`: what holds in every state.
3. `loops_end`: what has become of the connection where nothing is left to do.
-/

namespace SocketTest.Multiplexing

open SocketTest.Lib

/-! ## 1. The two loops -/

/-- `test_poll`, `test1`. -/
inductive Loop
  | poll
  | select
  deriving DecidableEq

/-- The size of `recvbuf`. -/
def RECV_SIZE : ℕ := 1024

/-- In `poll` or `select`, before the `recv` of normal or of urgent data, before `send`, behind the
loop, or killed. -/
inductive Stage
  | waiting
  | reading
  | alarmed
  | answering
  | left
  | killed
  deriving DecidableEq

structure Session where
  conn : Conn
  stage : Stage
  /-- the answers that have been sent -/
  answers : List (List UInt8)
  /-- a reset has come behind the FIN -/
  refused : Bool

namespace Session

def start : Session := ⟨.fresh, .waiting, [], false⟩

/-- "OK". -/
def ok : List UInt8 := [79, 75]

def enter (s : Session) (x : Stage) : Session := { s with stage := x }

/-- `break`, and `close`. -/
def leave (s : Session) : Session := { s with conn := s.conn.closeIf true, stage := .left }

/-- `SIGPIPE`; the descriptor is closed with the process. -/
def kill (s : Session) : Session := { s with conn := s.conn.closeIf true, stage := .killed }

/-- `recv` of `n` bytes. -/
def recv (s : Session) (n : ℕ) (u : Urgent) : Session :=
  { s with conn := s.conn.read n u, stage := .answering }

/-- `recv` with `MSG_OOB`. `test_poll` does not look at what it returns. -/
def recvOob (k : Loop) (s : Session) (o : Outcome) (c : Conn) : Session :=
  if k = .select ∧ o ≠ .bytes then leave { s with conn := c }
  else { s with conn := c, stage := .answering }

def send (s : Session) : Session := { s with answers := s.answers ++ [ok], stage := .waiting }

/-- The steps of the loop. -/
inductive Round (k : Loop) (s : Session) : Session → Prop
  | hangUp (hk : k = .poll) (hp : s.stage = .waiting) (he : s.conn.ending ≠ .going) : Round k s s.leave
  | input (hp : s.stage = .waiting) (hk : k = .poll → s.conn.ending = .going) (hr : s.conn.Readable) :
      Round k s (s.enter .reading)
  | urgent (hp : s.stage = .waiting) (hr : ¬ s.conn.Readable) (hu : s.conn.urgent = .present) :
      Round k s (s.enter .alarmed)
  | recv {n : ℕ} {u : Urgent} (hp : s.stage = .reading) (h0 : 0 < n) (hn : n ≤ RECV_SIZE - 1)
      (hlen : n ≤ s.conn.unread.length)
      (hu : u = s.conn.urgent ∨ s.conn.urgent = .present ∧ u = .clear) : Round k s (s.recv n u)
  | nothing (hk : k = .select) (hp : s.stage = .reading) (h : s.conn.unread = [])
      (he : s.conn.ending ≠ .going) : Round k s s.leave
  | unchecked (hk : k = .poll) (hp : s.stage = .reading) (h : s.conn.unread = [])
      (he : s.conn.ending ≠ .going) : Round k s (s.enter .answering)
  | recvOob {o : Outcome} {c : Conn} (hp : s.stage = .alarmed) (hr : RecvOob s.conn o c) :
      Round k s (s.recvOob k o c)
  | send (hp : s.stage = .answering) (he : s.conn.ending ≠ .reset) (hf : s.refused = false) :
      Round k s s.send
  | sendFails (hp : s.stage = .answering) (he : s.conn.ending = .reset) : Round k s s.leave
  | sigpipe (hp : s.stage = .answering) (he : s.conn.ending = .fin) (hf : s.refused = true) :
      Round k s s.kill

/-- A reset comes behind the FIN. -/
inductive Refuse (s : Session) : Session → Prop
  | reset (ho : s.conn.closed = false) (he : s.conn.ending = .fin) (hf : s.refused = false) :
      Refuse s { s with refused := true }

/-- What the peer does. -/
inductive Peer (s : Session) : Session → Prop
  | conn {c : Conn} (ho : s.conn.closed = false) (he : s.conn.ending = .going) (h : s.conn.Peer c) :
      Peer s { s with conn := c }
  | refuse {t : Session} (h : Refuse s t) : Peer s t

def Step (k : Loop) (s : Session) : Party → Session → Prop
  | .peers => Peer s
  | .server => Round k s

/-- The steps of a session that is left alone: a reset may still answer what is sent. -/
def Alone (k : Loop) (s t : Session) : Prop := Round k s t ∨ Refuse s t

variable {k : Loop} {s s' t : Session} {ps : List Party} {p : Party} {o : Outcome} {c : Conn}

/-! ## 2. Every state -/

def Over (s : Session) : Prop := s.stage = .left ∨ s.stage = .killed

/-- A second urgent byte has not been announced, or it does not matter. -/
def Calm (k : Loop) (s : Session) : Prop := k = .select → s.conn.alarms ≤ 1

structure Inv (k : Loop) (s : Session) : Prop where
  stream : s.conn.received = s.conn.taken ++ s.conn.unread
  closed_iff : s.conn.closed = true ↔ s.Over
  marked : s.conn.urgent ≠ .clear → 1 ≤ s.conn.alarms
  reading : s.stage = .reading → s.conn.Readable ∧ (k = .poll → s.conn.unread ≠ [])
  alarmed : s.stage = .alarmed → s.conn.urgent = .present ∨ 2 ≤ s.conn.alarms
  refused : s.refused = true → s.conn.ending = .fin
  ended : s.Over → s.Calm k → s.conn.ending ≠ .going
  drained : k = .select → s.stage = .left → s.conn.ending = .fin → s.conn.alarms ≤ 1 →
    s.conn.unread = []
  killed : s.stage = .killed → s.refused = true

theorem inv_start (k : Loop) : Inv k start where
  stream := rfl
  closed_iff := iff_of_false Bool.false_ne_true (by rintro (h | h) <;> cases h)
  marked h := absurd rfl h
  reading h := Stage.noConfusion h
  alarmed h := Stage.noConfusion h
  refused h := absurd h Bool.false_ne_true
  ended h := by rcases h with h | h <;> cases h
  drained _ h := Stage.noConfusion h
  killed h := Stage.noConfusion h

theorem Inv.over (h : Inv k s) (ho : s.conn.closed = false) : ¬ s.Over := fun hover =>
  absurd (h.closed_iff.2 hover) (ho ▸ Bool.false_ne_true)

theorem Inv.open (h : Inv k s) (hover : ¬ s.Over) : s.conn.closed = false :=
  Bool.eq_false_of_not_eq_true fun hc => hover (h.closed_iff.1 hc)

theorem not_over (hp : s.stage = .waiting ∨ s.stage = .reading ∨ s.stage = .alarmed ∨
    s.stage = .answering) : ¬ s.Over := by
  rintro (h | h) <;> rw [h] at hp <;> simp at hp

/-- The loop goes on: nothing is closed. -/
theorem Inv.go (h : Inv k s) (hover : ¬ s.Over) (x : Stage) (hx : x ≠ .left ∧ x ≠ .killed)
    {c : Conn} {as : List (List UInt8)} (hstream : c.received = c.taken ++ c.unread)
    (hclosed : c.closed = s.conn.closed) (hmarked : c.urgent ≠ .clear → 1 ≤ c.alarms)
    (hreading : x = .reading → c.Readable ∧ (k = .poll → c.unread ≠ []))
    (halarmed : x = .alarmed → c.urgent = .present ∨ 2 ≤ c.alarms)
    (hending : c.ending = s.conn.ending) : Inv k ⟨c, x, as, s.refused⟩ where
  stream := hstream
  closed_iff := by
    refine iff_of_false ?_ (not_or.2 hx)
    show ¬ c.closed = true
    rw [hclosed, h.open hover]
    exact Bool.false_ne_true
  marked := hmarked
  reading := hreading
  alarmed := halarmed
  refused hf := hending.trans (h.refused hf)
  ended ho := absurd ho (not_or.2 hx)
  drained _ hl := absurd hl hx.1
  killed hl := absurd hl hx.2

theorem Inv.leave (h : Inv k s) (he : s.Calm k → s.conn.ending ≠ .going)
    (hdrained : k = .select → s.conn.ending = .fin → s.conn.alarms ≤ 1 → s.conn.unread = []) :
    Inv k s.leave where
  stream := h.stream
  closed_iff := iff_of_true (Bool.or_true _) (.inl rfl)
  marked := h.marked
  reading hp := Stage.noConfusion hp
  alarmed hp := Stage.noConfusion hp
  refused := h.refused
  ended _ := he
  drained hk _ := hdrained hk
  killed hp := Stage.noConfusion hp

theorem Inv.recvOob (h : Inv k s) (hp : s.stage = .alarmed) (hr : RecvOob s.conn o c) :
    Inv k (s.recvOob k o c) := by
  have hover : ¬ s.Over := not_over (.inr (.inr (.inl hp)))
  unfold Session.recvOob
  split_ifs with hcase
  · obtain ⟨rfl, ho⟩ := hcase
    -- with one urgent byte announced it is there, and only a reset keeps it from being read
    have hreset (hle : s.conn.alarms ≤ 1) : s.conn.ending = .reset := by
      have hu : s.conn.urgent = .present := (h.alarmed hp).resolve_right (by omega)
      cases hr with
      | byte => exact absurd rfl ho
      | zero _ hu' | again _ hu' | clear _ hu' => exact Urgent.noConfusion (hu.symm.trans hu')
      | reset _ he => exact he
      | closed hc => exact absurd (h.closed_iff.1 hc) hover
    rw [Item.Recv.unchanged (x := .urgent 0) hr ho]
    refine h.leave (fun hcalm => ?_) fun _ hfin hle => ?_
    · rw [hreset (hcalm rfl)]
      exact Ending.noConfusion
    · exact Ending.noConfusion ((hreset hle).symm.trans hfin)
  · cases hr with
    | byte _ _ _ =>
      exact h.go hover .answering ⟨nofun, nofun⟩ h.stream rfl (absurd rfl) nofun nofun rfl
    | zero | again | clear | reset | closed =>
      exact h.go hover .answering ⟨nofun, nofun⟩ h.stream rfl h.marked nofun nofun rfl

theorem Inv.round (h : Inv k s) (hs : Round k s s') : Inv k s' := by
  cases hs with
  | hangUp hk hp he =>
    subst hk
    exact h.leave (fun _ => he) Loop.noConfusion
  | input hp hk hr =>
    refine h.go (not_over (.inl hp)) .reading ⟨nofun, nofun⟩ h.stream rfl h.marked
      (fun _ => ⟨hr, fun hpoll => ?_⟩) nofun rfl
    exact hr.resolve_right fun hne => hne (hk hpoll)
  | urgent hp hr hu =>
    exact h.go (not_over (.inl hp)) .alarmed ⟨nofun, nofun⟩ h.stream rfl h.marked nofun
      (fun _ => .inl hu) rfl
  | @recv n u hp h0 hn hlen hu =>
    refine h.go (not_over (.inr (.inl hp))) .answering ⟨nofun, nofun⟩ ?_ rfl (fun hne => h.marked ?_)
      nofun nofun rfl
    · show s.conn.received = s.conn.taken ++ s.conn.unread.take n ++ s.conn.unread.drop n
      rw [List.append_assoc, List.take_append_drop]
      exact h.stream
    · rcases hu with rfl | ⟨hu, -⟩
      · exact hne
      · rw [hu]
        exact Urgent.noConfusion
  | nothing hk hp hnone he => exact h.leave (fun _ => he) fun _ _ _ => hnone
  | unchecked hk hp hnone he => exact absurd hnone ((h.reading hp).2 hk)
  | recvOob hp hr => exact h.recvOob hp hr
  | send hp he hf =>
    exact h.go (not_over (.inr (.inr (.inr hp)))) .waiting ⟨nofun, nofun⟩ h.stream rfl h.marked nofun
      nofun rfl
  | sendFails hp he =>
    refine h.leave (fun _ => ?_) fun _ hfin _ => Ending.noConfusion (he.symm.trans hfin)
    rw [he]
    exact Ending.noConfusion
  | sigpipe hp he hf =>
    refine ⟨h.stream, iff_of_true (Bool.or_true _) (.inr rfl), h.marked, Stage.noConfusion,
      Stage.noConfusion, h.refused, fun _ _ => ?_, fun _ => Stage.noConfusion, fun _ => hf⟩
    show s.conn.ending ≠ .going
    rw [he]
    exact Ending.noConfusion

theorem Inv.refuse (h : Inv k s) (hs : Refuse s s') : Inv k s' := by
  cases hs with
  | reset ho he hf =>
    exact ⟨h.stream, h.closed_iff, h.marked, h.reading, h.alarmed, fun _ => he, h.ended, h.drained,
      fun _ => rfl⟩

theorem Inv.peer (h : Inv k s) (hs : Peer s s') : Inv k s' := by
  cases hs with
  | refuse hs => exact h.refuse hs
  | @conn c ho he hp =>
    have hover := h.over ho
    have hrefused : s.refused ≠ true := fun hf =>
      Ending.noConfusion (he.symm.trans (h.refused hf))
    have hleft : s.stage ≠ .left := fun hl => hover (.inl hl)
    have hkilled : s.stage ≠ .killed := fun hl => hover (.inr hl)
    have hopen {c : Conn} (hc : c.closed = s.conn.closed) (hstream : c.received = c.taken ++ c.unread)
        (hmarked : c.urgent ≠ .clear → 1 ≤ c.alarms)
        (hreading : s.stage = .reading → c.Readable ∧ (k = .poll → c.unread ≠ []))
        (halarmed : s.stage = .alarmed → c.urgent = .present ∨ 2 ≤ c.alarms) :
        Inv k { s with conn := c } :=
      ⟨hstream, hc ▸ h.closed_iff, hmarked, hreading, halarmed, fun hf => absurd hf hrefused,
        fun hl => absurd hl hover, fun _ hl => absurd hl hleft, fun hl => absurd hl hkilled⟩
    cases hp with
    | arrive bs =>
      have hne (hne : s.conn.unread ≠ []) : s.conn.unread ++ bs ≠ [] := fun heq =>
        hne (List.append_eq_nil_iff.1 heq).1
      refine hopen rfl ?_ h.marked (fun hr => ?_) h.alarmed
      · show s.conn.received ++ bs = s.conn.taken ++ (s.conn.unread ++ bs)
        rw [h.stream, List.append_assoc]
      · exact ⟨(h.reading hr).1.imp_left hne, fun hk => hne ((h.reading hr).2 hk)⟩
    | @announce unread hsub =>
      have hne (hne : s.conn.unread ≠ []) : unread ≠ [] := fun heq =>
        hne (List.sublist_nil.1 (heq ▸ hsub))
      refine hopen rfl rfl (fun _ => Nat.le_add_left _ _) (fun hr => ?_) fun ha => .inr ?_
      · exact ⟨(h.reading hr).1.imp_left hne, fun hk => hne ((h.reading hr).2 hk)⟩
      · show 2 ≤ s.conn.alarms + 1
        rcases h.alarmed ha with hu | hle
        · exact Nat.succ_le_succ (h.marked (hu ▸ Urgent.noConfusion))
        · omega
    | alarm hu =>
      exact hopen rfl h.stream (fun _ => h.marked (hu ▸ Urgent.noConfusion)) h.reading
        fun _ => .inl rfl
    | finish hne =>
      exact hopen rfl h.stream h.marked (fun hr => ⟨.inr hne, (h.reading hr).2⟩) h.alarmed

theorem Inv.step (h : Inv k s) (hs : Step k s p s') : Inv k s' := by
  cases p with
  | peers => exact h.peer hs
  | server => exact h.round hs

theorem inv_run (hr : Run (Step k) start ps s) : Inv k s :=
  hr.invariant (fun _ _ _ => Inv.step) (inv_start k)

theorem Inv.alone (h : Inv k s) (hs : Alone k s s') : Inv k s' := hs.elim h.round h.refuse

/-! ## 3. The end -/

/-- Neither the loop nor a reset behind the FIN changes what the peer has done before. -/
theorem Alone.history (hs : Alone k s s') : s'.conn.history = s.conn.history := by
  rcases hs with hs | hs
  · cases hs with
    | recvOob hp hr =>
      have hc := Item.Recv.history (x := .urgent 0) hr
      unfold Session.recvOob
      split_ifs
      · exact hc
      · exact hc
    | _ => rfl
  · cases hs
    rfl

/-- Behind the end of the connection `test_poll` comes to read no more. -/
theorem Alone.taken (hs : Alone .poll s s') (he : s.conn.ending ≠ .going) (hp : s.stage ≠ .reading) :
    s'.conn.taken = s.conn.taken ∧ s'.stage ≠ .reading := by
  rcases hs with hs | hs
  · cases hs with
    | hangUp | urgent | send | sendFails | sigpipe => exact ⟨rfl, Stage.noConfusion⟩
    | input _ hgoing => exact absurd (hgoing rfl) he
    | recv hreading | nothing _ hreading | unchecked _ hreading => exact absurd hreading hp
    | recvOob _ hr =>
      unfold Session.recvOob
      rw [if_neg fun hk => Loop.noConfusion hk.1]
      refine ⟨?_, Stage.noConfusion⟩
      cases hr <;> rfl
  · cases hs
    exact ⟨rfl, hp⟩

/-- What a session that is left alone keeps. -/
structure Since (k : Loop) (s t : Session) : Prop where
  history : t.conn.history = s.conn.history
  taken : k = .poll → s.conn.ending ≠ .going → s.stage ≠ .reading →
    t.conn.taken = s.conn.taken ∧ t.stage ≠ .reading

theorem Since.refl (k : Loop) (s : Session) : Since k s s := ⟨rfl, fun _ _ h => ⟨rfl, h⟩⟩

theorem Since.received (h : Since k s t) : t.conn.received = s.conn.received :=
  congrArg (·.1) h.history

theorem Since.ending (h : Since k s t) : t.conn.ending = s.conn.ending :=
  congrArg (·.2.1) h.history

theorem Since.alarms (h : Since k s t) : t.conn.alarms = s.conn.alarms :=
  congrArg (·.2.2) h.history

theorem Since.alone (h : Since k s t) (hs : Alone k t s') : Since k s s' := by
  refine ⟨hs.history.trans h.history, fun hk he hp => ?_⟩
  subst hk
  obtain ⟨htaken, hstage⟩ := h.taken rfl he hp
  obtain ⟨htaken', hstage'⟩ := hs.taken (h.ending ▸ he) hstage
  exact ⟨htaken'.trans htaken, hstage'⟩

/-- How far the loop is from its next wait. With no byte to come, and nothing taken back, the `recv`
of urgent data leads to an answer all the same. -/
def rank (s : Session) : ℕ :=
  match s.stage with
  | .waiting => 2
  | .reading => 1
  | .alarmed => if s.conn.urgent = .present ∧ s.conn.ending ≠ .reset then 1 else 4
  | .answering => 3
  | .left => 0
  | .killed => 0

def measure (s : Session) : ℕ := 4 * s.conn.weight + s.rank + if s.refused then 0 else 1

theorem leave_measure (h : Inv k s) (hover : ¬ s.Over) : s.leave.measure < s.measure := by
  have hweight : (s.conn.closeIf true).weight < s.conn.weight := Conn.close_weight (h.open hover)
  show 4 * (s.conn.closeIf true).weight + 0 + (if s.refused then 0 else 1) <
    4 * s.conn.weight + s.rank + if s.refused then 0 else 1
  omega

theorem recvOob_measure (h : Inv k s) (hp : s.stage = .alarmed) (hr : RecvOob s.conn o c) :
    (s.recvOob k o c).measure < s.measure := by
  have hover : ¬ s.Over := not_over (.inr (.inr (.inl hp)))
  unfold Session.recvOob
  split_ifs with hcase
  · rw [Item.Recv.unchanged (x := .urgent 0) hr hcase.2]
    exact leave_measure h hover
  · have hrank : s.rank = if s.conn.urgent = .present ∧ s.conn.ending ≠ .reset then 1 else 4 := by
      rw [rank, hp]
    show 4 * c.weight + 3 + (if s.refused then 0 else 1) <
      4 * s.conn.weight + s.rank + if s.refused then 0 else 1
    rw [hrank]
    by_cases ho : o = .bytes
    · subst ho
      have hweight : c.weight < s.conn.weight := Item.Recv.bytes_weight (x := .urgent 0) hr
      split_ifs <;> omega
    · have hnone : ¬ (s.conn.urgent = .present ∧ s.conn.ending ≠ .reset) := fun hpresent => by
        cases hr with
        | byte => exact ho rfl
        | zero _ hu | again _ hu | clear _ hu => exact Urgent.noConfusion (hpresent.1.symm.trans hu)
        | reset _ he => exact hpresent.2 he
        | closed hc => exact hover (h.closed_iff.1 hc)
      rw [Item.Recv.unchanged (x := .urgent 0) hr ho, if_neg hnone]
      omega

theorem alone_measure (h : Inv k s) (hs : Alone k s s') : s'.measure < s.measure := by
  rcases hs with hs | hs
  · cases hs with
    | hangUp _ hp => exact leave_measure h (not_over (.inl hp))
    | nothing _ hp => exact leave_measure h (not_over (.inr (.inl hp)))
    | sendFails hp => exact leave_measure h (not_over (.inr (.inr (.inr hp))))
    | sigpipe hp => exact leave_measure h (not_over (.inr (.inr (.inr hp))))
    | recvOob hp hr => exact recvOob_measure h hp hr
    | unchecked hk hp hnone => exact absurd hnone ((h.reading hp).2 hk)
    | input hp =>
      have hrank : s.rank = 2 := by rw [rank, hp]
      show 4 * s.conn.weight + 1 + (if s.refused then 0 else 1) <
        4 * s.conn.weight + s.rank + if s.refused then 0 else 1
      omega
    | urgent hp hr hu =>
      have hrank : s.rank = 2 := by rw [rank, hp]
      have hnot : s.conn.ending ≠ .reset := fun he => by
        refine hr (.inr ?_)
        rw [he]
        exact Ending.noConfusion
      have hrank' : (s.enter .alarmed).rank = 1 := if_pos ⟨hu, hnot⟩
      show 4 * s.conn.weight + (s.enter .alarmed).rank + (if s.refused then 0 else 1) <
        4 * s.conn.weight + s.rank + if s.refused then 0 else 1
      omega
    | @recv n u hp h0 hn hlen hu =>
      have hrank : s.rank = 1 := by rw [rank, hp]
      have hweight : (s.conn.read n u).weight < s.conn.weight := Conn.read_weight h0 hlen hu
      show 4 * (s.conn.read n u).weight + 3 + (if s.refused then 0 else 1) <
        4 * s.conn.weight + s.rank + if s.refused then 0 else 1
      omega
    | send hp =>
      have hrank : s.rank = 3 := by rw [rank, hp]
      show 4 * s.conn.weight + 2 + (if s.refused then 0 else 1) <
        4 * s.conn.weight + s.rank + if s.refused then 0 else 1
      omega
  · cases hs with
    | reset ho he hf =>
      show 4 * s.conn.weight + s.rank + 0 < 4 * s.conn.weight + s.rank + if s.refused then 0 else 1
      rw [hf]
      exact Nat.lt_succ_self _

/-- Left alone, the loop comes to wait with nothing to read, or to its end. -/
theorem Inv.at_rest (h : Inv k s) (hstuck : Stuck (Alone k) s) :
    s.Over ∨ s.conn.closed = false ∧ ¬ s.conn.Readable := by
  have hround : Stuck (Round k) s := fun t ht => hstuck t (.inl ht)
  cases hp : s.stage with
  | waiting =>
    refine .inr ⟨h.open (not_over (.inl hp)), fun hr => ?_⟩
    by_cases he : s.conn.ending = .going
    · exact hround _ (.input hp (fun _ => he) hr)
    · cases k with
      | poll => exact hround _ (.hangUp rfl hp he)
      | select => exact hround _ (.input hp Loop.noConfusion hr)
  | reading =>
    exfalso
    obtain ⟨hreadable, hpoll⟩ := h.reading hp
    by_cases hnone : s.conn.unread = []
    · cases k with
      | poll => exact hpoll rfl hnone
      | select => exact hround _ (.nothing rfl hp hnone (hreadable.resolve_left (not_not.2 hnone)))
    · exact hround _ (.recv hp Nat.one_pos (by decide) (List.length_pos_of_ne_nil hnone) (.inl rfl))
  | alarmed =>
    obtain ⟨o, c, hr⟩ := Item.recv_total (x := .urgent 0) rfl s.conn
    exact absurd (.recvOob hp hr) (hround _)
  | answering =>
    exfalso
    by_cases he : s.conn.ending = .reset
    · exact hround _ (.sendFails hp he)
    · cases hf : s.refused with
      | false => exact hround _ (.send hp he hf)
      | true => exact hround _ (.sigpipe hp (h.refused hf) hf)
  | left => exact .inl (.inl hp)
  | killed => exact .inl (.inr hp)

/-- What has become of the session `s` when there is nothing left to do. -/
structure Done (k : Loop) (s t : Session) : Prop where
  since : Since k s t
  in_order : t.conn.taken <+: s.conn.received
  closed : s.conn.ending ≠ .going → t.conn.closed = true
  waits : s.conn.ending = .going → s.Calm k → t.conn.closed = false
  whole : s.conn.ending = .going → t.conn.closed = false → t.conn.taken = s.conn.received
  drained : k = .select → s.conn.ending = .fin → s.conn.alarms ≤ 1 → t.stage ≠ .killed →
    t.conn.taken = s.conn.received
  killed : t.stage = .killed → s.conn.ending = .fin

theorem Inv.done (h : Inv k t) (hsince : Since k s t) (hstuck : Stuck (Alone k) t) : Done k s t := by
  have hwhole (hnone : t.conn.unread = []) : t.conn.taken = s.conn.received := by
    rw [← hsince.received, h.stream, hnone, List.append_nil]
  have hclosed (he : s.conn.ending ≠ .going) : t.Over :=
    (h.at_rest hstuck).resolve_right fun hwait =>
      he (hsince.ending.symm.trans (Conn.not_readable.1 hwait.2).2)
  refine ⟨hsince, ?_, fun he => h.closed_iff.2 (hclosed he), fun he hcalm => h.open fun hover => ?_,
    fun _ ho => ?_, fun hk he hle hkilled => hwhole ?_, fun hkilled => ?_⟩
  · rw [← hsince.received, h.stream]
    exact List.prefix_append _ _
  · exact h.ended hover (fun hk => hsince.alarms ▸ hcalm hk) (hsince.ending.trans he)
  · exact hwhole (Conn.not_readable.1 ((h.at_rest hstuck).resolve_left (h.over ho)).2).1
  · have hleft : t.stage = .left := (hclosed (he ▸ Ending.noConfusion)).resolve_right hkilled
    exact h.drained hk hleft (hsince.ending.trans he) (hsince.alarms ▸ hle)
  · exact hsince.ending.symm.trans (h.refused (h.killed hkilled))

/-- Left alone, both loops come to their end if the peer has ended the connection, and else to
wait with everything read, or `test1` to its end behind a second urgent byte. `test1` reads what
there is behind a FIN before it leaves, unless a reset comes first; `test_poll` leaves it. -/
theorem loops_end (hr : Run (Step k) start ps s) : Settles (Alone k) (Done k s) s :=
  .of_decreasing measure (I := fun t => Inv k t ∧ Since k s t)
    (fun _ _ ht hs => ⟨ht.1.alone hs, ht.2.alone hs⟩) (fun _ _ ht => alone_measure ht.1)
    (fun _ ht => ht.1.done ht.2) ⟨inv_run hr, .refl k s⟩

/-- Data comes, and a FIN behind it. -/
def unreadFin : Session := { start with conn := (Conn.fresh.arrive [104, 105]).finish .fin }

theorem loops_end_unreadFin :
    Settles (Alone .poll) (Done .poll unreadFin) unreadFin ∧
      Settles (Alone .select) (Done .select unreadFin) unreadFin := by
  have hr (k : Loop) : Run (Step k) start [.peers, .peers] unreadFin := by
    have harrive : Step k start .peers { start with conn := Conn.fresh.arrive [104, 105] } :=
      Peer.conn rfl rfl (.arrive _)
    have hfin : Step k { start with conn := Conn.fresh.arrive [104, 105] } .peers unreadFin :=
      Peer.conn rfl rfl (.finish Ending.noConfusion)
    exact .cons harrive (.single hfin)
  exact ⟨loops_end (hr .poll), loops_end (hr .select)⟩

end Session

end SocketTest.Multiplexing
