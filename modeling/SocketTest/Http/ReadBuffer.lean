import SocketTest.Http.Calls

/-!
# The read buffer over whole runs

`readFrom` is `read` with the answers of `recv` one by one; what it appends is one chunk
(`readFrom_read`). A run of a connection slot takes `init`, `read` and the rounds of `process_read`
in any order; after a `read` that returns `false` the connection is closed and only `init` comes
next. The cursors stay in order and the bytes behind `m_read_idx` are NUL (`InOrder`), but nothing keeps
a `read` from filling the buffer to its last byte: the next `recv` asks for no bytes and may find none
to come. `get_line` then has no NUL left (`read_buffer_iff`).

A body write outside `m_read_buf` is recorded as a fault and does not change the cursors.
-/

namespace SocketTest.Http

open SocketTest.Lib

/-- What `recv` answers: bytes, 0, or -1 with `EAGAIN` or with another error. -/
inductive Recv
  | data (bytes : List UInt8)
  | closed
  | again
  | error

namespace HttpConn

/-- The loop of `read`; `none` when the answers do not go on. -/
def recvLoop (c : HttpConn) : List Recv → Option (Bool × HttpConn)
  | [] => none
  | .data bytes :: answers => recvLoop (c.receive bytes) answers
  | .closed :: _ => some (false, c)
  | .again :: _ => some (true, c)
  | .error :: _ => some (false, c)

/-- `read`, from the answers of `recv`. -/
def readFrom (c : HttpConn) (answers : List Recv) : Option (Bool × HttpConn) :=
  if READ_BUFFER_SIZE ≤ c.readIdx then some (false, c) else c.recvLoop answers

/-- `recv` answers a request for `READ_BUFFER_SIZE - m_read_idx` bytes with 1 to that many. -/
def Answers (c : HttpConn) : List Recv → Prop
  | [] => True
  | .data bytes :: answers => 0 < bytes.length ∧ bytes.length ≤ READ_BUFFER_SIZE - c.readIdx ∧
      Answers (c.receive bytes) answers
  | .closed :: _ => True
  | .again :: _ => True
  | .error :: _ => True

/-! ## `read` appends one chunk -/

variable {c c' : HttpConn} {answers : List Recv}

theorem receive_nil (c : HttpConn) : c.receive [] = c := by
  have hbuf : (c.receive []).readBuf = c.readBuf := funext fun i =>
    if_neg (show ¬ (c.readIdx ≤ i ∧ i < c.readIdx + 0) by omega)
  unfold receive at hbuf ⊢
  dsimp only at hbuf ⊢
  rw [hbuf]
  rfl

theorem receive_append (c : HttpConn) (s t : List UInt8) :
    (c.receive s).receive t = c.receive (s ++ t) := by
  have hidx : c.readIdx + s.length + t.length = c.readIdx + (s ++ t).length := by
    rw [List.length_append, Nat.add_assoc]
  have hbuf : ((c.receive s).receive t).readBuf = (c.receive (s ++ t)).readBuf := by
    funext i
    unfold receive
    dsimp only
    rw [← hidx]
    by_cases h1 : c.readIdx + s.length ≤ i ∧ i < c.readIdx + s.length + t.length
    · rw [if_pos h1, if_pos (by omega), List.getD_append_right _ _ _ _ (by omega)]
      congr 1
      omega
    rw [if_neg h1]
    by_cases h2 : c.readIdx ≤ i ∧ i < c.readIdx + s.length
    · rw [if_pos h2, if_pos (by omega), List.getD_append _ _ _ _ (by omega)]
    · rw [if_neg h2, if_neg (by omega)]
  unfold receive at hbuf ⊢
  dsimp only at hbuf ⊢
  rw [hbuf, hidx]

/-- The bytes that `recv` gives before it gives none. -/
def bytesIn : List Recv → ℕ
  | .data bytes :: answers => bytes.length + bytesIn answers
  | _ => 0

/-- When the loop ends with `true`, the bytes it has appended fit into the buffer. -/
theorem recvLoop_true (ha : Answers c answers) (hfit : c.readIdx ≤ READ_BUFFER_SIZE)
    (h : c.recvLoop answers = some (true, c')) : ∃ chunk, c' = c.receive chunk ∧
      c.readIdx + chunk.length ≤ READ_BUFFER_SIZE ∧ chunk.length = bytesIn answers := by
  induction answers generalizing c with
  | nil => cases h
  | cons answer answers ih =>
    cases answer with
    | data bytes =>
      obtain ⟨-, hroom, hrest⟩ := ha
      have hfit' : (c.receive bytes).readIdx ≤ READ_BUFFER_SIZE := by
        show c.readIdx + bytes.length ≤ READ_BUFFER_SIZE
        omega
      obtain ⟨chunk, rfl, hle, hlen⟩ := ih hrest hfit' h
      refine ⟨bytes ++ chunk, receive_append c bytes chunk, ?_, ?_⟩
      · have hle' : c.readIdx + bytes.length + chunk.length ≤ READ_BUFFER_SIZE := hle
        rw [List.length_append]
        omega
      · rw [List.length_append, hlen]
        rfl
    | closed => cases h
    | again =>
      cases h
      exact ⟨[], (receive_nil _).symm, hfit, rfl⟩
    | error => cases h

/-- A `read` that returns `true` is the `read` of one chunk. -/
theorem readFrom_read (ha : Answers c answers) (h : c.readFrom answers = some (true, c')) :
    ∃ chunk, c.read chunk = (true, c') ∧ chunk.length = bytesIn answers := by
  unfold readFrom at h
  split_ifs at h with hfull
  · cases h
  · obtain ⟨chunk, rfl, hle, hlen⟩ := recvLoop_true ha (by omega) h
    refine ⟨chunk, ?_, hlen⟩
    unfold read
    rw [if_neg hfull]
    dsimp only
    rw [List.take_of_length_le (by omega), decide_eq_true (by omega)]

/-! ## The invariant -/

/-- The cursors are in order and the buffer behind them is NUL. -/
structure InOrder (c : HttpConn) : Prop where
  start_le : c.startLine ≤ c.checkedIdx
  checked_le : c.checkedIdx ≤ c.readIdx
  read_le : c.readIdx ≤ READ_BUFFER_SIZE
  nul : ∀ i, c.readIdx ≤ i → c.readBuf i = NUL

/-- The cursors are below the end of the buffer as well, where one byte at least is NUL. -/
structure InBuffer (c : HttpConn) : Prop where
  start_le : c.startLine ≤ c.checkedIdx
  checked_le : c.checkedIdx ≤ c.readIdx
  read_lt : c.readIdx < READ_BUFFER_SIZE
  nul : ∀ i, c.readIdx ≤ i → c.readBuf i = NUL

theorem InOrder.inBuffer (h : InOrder c) (hlt : c.readIdx < READ_BUFFER_SIZE) : InBuffer c :=
  ⟨h.start_le, h.checked_le, hlt, h.nul⟩

theorem InOrder.clear (h : InOrder c) : Clear c := ⟨h.checked_le, h.nul⟩

theorem InOrder.init (c : HttpConn) : InOrder c.init :=
  ⟨le_rfl, le_rfl, Nat.zero_le _, fun _ _ => rfl⟩

theorem InOrder.read (h : InOrder c) {chunk : List UInt8} (hr : c.read chunk = (true, c')) :
    InOrder c' ∧ c'.readIdx = c.readIdx + chunk.length := by
  obtain ⟨he, hle⟩ := read_eq (congrArg Prod.fst hr)
  obtain rfl : c' = c.receive chunk := by rw [← he, hr]
  have hc := h.clear.receive chunk
  exact ⟨⟨h.start_le, hc.checked_le, hle, hc.nul⟩, rfl⟩

theorem InOrder.parseLine (h : InOrder c) : InOrder c.parseLine.2 := by
  have hc := h.clear.parseLine
  refine ⟨?_, hc.checked_le, ?_, hc.nul⟩
  · rw [parseLine_startLine]
    exact h.start_le.trans (le_parseLine_checked h.checked_le)
  · rw [parseLine_readIdx]
    exact h.read_le

/-- The line starts at `m_start_line` or at the next one. -/
theorem Parses.startLine {t : HttpConn} (h : Parses t c') : c'.startLine = t.checkedIdx := by
  cases h with
  | requestLine => rw [parseRequestLine_startLine]; rfl
  | headers =>
    obtain ⟨st, n, l, h, hr, -⟩ := parseHeaders_frame t.nextLine t.startLine
    rw [hr]
    rfl
  | content =>
    unfold parseContent putAt
    split_ifs <;> rfl

theorem InOrder.parses {t : HttpConn} (h : InOrder t) (hp : Parses t c') : InOrder c' := by
  have hk := hp.keeps
  have hread : c'.readIdx = t.readIdx := hk.readIdx
  have hchecked : c'.checkedIdx = t.checkedIdx := hk.checkedIdx
  have hc := h.clear.nextLine.keeps hk
  refine ⟨?_, hc.checked_le, ?_, hc.nul⟩
  · rw [hp.startLine, hchecked]
  · rw [hread]
    exact h.read_le

/-- The connection when a round calls `get_line`. -/
theorem InOrder.loopCond (h : InOrder c) (s : LineStatus) :
    InOrder (c.loopCond s).2 ∧ (c.loopCond s).2.readIdx = c.readIdx := by
  unfold HttpConn.loopCond
  split_ifs
  · exact ⟨h, rfl⟩
  · exact ⟨h.parseLine, parseLine_readIdx c⟩

/-- A round receives nothing. -/
theorem InOrder.round (h : InOrder c) (s : LineStatus) :
    (∀ o c', processRound (c, s) = .inl (o, c') → InOrder c' ∧ c'.readIdx = c.readIdx) ∧
      ∀ c' s', processRound (c, s) = .inr (c', s') → InOrder c' ∧ c'.readIdx = c.readIdx := by
  obtain ⟨t, ht, hr⟩ := round_parses c s
  have ht' : InOrder t ∧ t.readIdx = c.readIdx := by
    rcases ht with rfl | rfl
    · exact ⟨h, rfl⟩
    · exact ⟨h.parseLine, parseLine_readIdx c⟩
  have hparses {d : HttpConn} (hp : Parses t d) : InOrder d ∧ d.readIdx = c.readIdx :=
    ⟨ht'.1.parses hp, hp.keeps.readIdx.trans ht'.2⟩
  rcases hr with hr | ⟨c₁, hp, ⟨o, hr, -⟩ | ⟨s', hr⟩⟩
  · rw [hr]
    refine ⟨fun o c' he => ?_, fun c' s' he => by cases he⟩
    cases he
    exact ht'
  · rw [hr]
    refine ⟨fun o c' he => ?_, fun c' s' he => by cases he⟩
    cases he
    exact hparses hp
  · rw [hr]
    refine ⟨(fun o c' he => by cases he), fun c' s' he => ?_⟩
    cases he
    exact hparses hp

end HttpConn

/-! ## Runs -/

/-- Where the slot is: closed, between two calls, or at the head of the loop of `process_read` with
`line_status`. -/
inductive SlotPhase
  | closed
  | idle
  | reading (s : LineStatus)

/-- A call on a connection, or a round of the loop of `process_read`. -/
inductive ConnOp
  | init
  | read (answers : List Recv)
  | enter
  | round

open HttpConn in
inductive ConnStep : HttpConn × SlotPhase → ConnOp → HttpConn × SlotPhase → Prop
  | accepted {c : HttpConn} : ConnStep (c, .closed) .init (c.init, .idle)
  | again {c : HttpConn} : ConnStep (c, .idle) .init (c.init, .idle)
  | read {c c' : HttpConn} {answers : List Recv} (ha : Answers c answers)
      (h : c.readFrom answers = some (true, c')) : ConnStep (c, .idle) (.read answers) (c', .idle)
  | closed {c c' : HttpConn} {answers : List Recv} (ha : Answers c answers)
      (h : c.readFrom answers = some (false, c')) :
      ConnStep (c, .idle) (.read answers) (c', .closed)
  | enter {c : HttpConn} : ConnStep (c, .idle) .enter (c, .reading .ok)
  | round {c c' : HttpConn} {s s' : LineStatus} (h : processRound (c, s) = .inr (c', s')) :
      ConnStep (c, .reading s) .round (c', .reading s')
  | leave {c c' : HttpConn} {s : LineStatus} {o : Outcome} (h : processRound (c, s) = .inl (o, c')) :
      ConnStep (c, .reading s) .round (c', .idle)

open HttpConn

/-- The bytes that the connection has received, after an operation. -/
def ConnOp.received (n : ℕ) : ConnOp → ℕ
  | .init => 0
  | .read answers => n + bytesIn answers
  | .enter => n
  | .round => n

/-- The bytes received since the last `init`. -/
def received (ops : List ConnOp) : ℕ := ops.foldl ConnOp.received 0

theorem received_concat (ops : List ConnOp) (op : ConnOp) :
    received (ops ++ [op]) = op.received (received ops) := by
  rw [received, List.foldl_append]
  rfl

/-- As long as the connection is open, `m_read_idx` counts the bytes received. -/
structure Counts (n : ℕ) (s : HttpConn × SlotPhase) : Prop where
  inOrder : s.2 ≠ .closed → InOrder s.1
  readIdx : s.2 ≠ .closed → s.1.readIdx = n

theorem Counts.step {n : ℕ} {s t : HttpConn × SlotPhase} {op : ConnOp} (h : Counts n s)
    (hs : ConnStep s op t) : Counts (op.received n) t := by
  cases hs with
  | accepted | again => exact ⟨fun _ => .init _, fun _ => rfl⟩
  | @read c c' answers ha hr =>
    obtain ⟨chunk, hchunk, hlen⟩ := readFrom_read ha hr
    obtain ⟨hin, hidx⟩ := (h.inOrder nofun).read hchunk
    refine ⟨fun _ => hin, fun _ => hidx.trans ?_⟩
    rw [hlen, h.readIdx nofun]
    rfl
  | closed => exact ⟨fun hne => absurd rfl hne, fun hne => absurd rfl hne⟩
  | enter => exact ⟨fun _ => h.inOrder nofun, fun _ => h.readIdx nofun⟩
  | round hr =>
    obtain ⟨hin, hidx⟩ := ((h.inOrder nofun).round _).2 _ _ hr
    exact ⟨fun _ => hin, fun _ => hidx.trans (h.readIdx nofun)⟩
  | leave hr =>
    obtain ⟨hin, hidx⟩ := ((h.inOrder nofun).round _).1 _ _ hr
    exact ⟨fun _ => hin, fun _ => hidx.trans (h.readIdx nofun)⟩

theorem counts_of_run {c₀ : HttpConn} {ops : List ConnOp} {s : HttpConn × SlotPhase}
    (hr : Run ConnStep (c₀, .closed) ops s) : Counts (received ops) s :=
  hr.history (fun ops s => Counts (received ops) s)
    ⟨fun hne => absurd rfl hne, fun hne => absurd rfl hne⟩
    (fun ops s op t h hs => by
      rw [received_concat]
      exact h.step hs)

/-- At the head of the loop and where the round calls `get_line`, the cursors are in order and below the
end of the buffer; what `get_line` returns ends inside it. -/
structure Terminated (c : HttpConn) (s : LineStatus) : Prop where
  head : InBuffer c
  line : InBuffer (c.loopCond s).2
  ends : ∃ i, (c.loopCond s).2.startLine ≤ i ∧ i < READ_BUFFER_SIZE ∧ (c.loopCond s).2.readBuf i = NUL

theorem HttpConn.InOrder.terminated {c : HttpConn} (h : InOrder c) (hlt : c.readIdx < READ_BUFFER_SIZE)
    (s : LineStatus) : Terminated c s := by
  obtain ⟨ht, hidx⟩ := h.loopCond s
  have ht' := ht.inBuffer (hidx.trans_lt hlt)
  exact ⟨h.inBuffer hlt, ht', _, ht'.start_le.trans ht'.checked_le, ht'.read_lt, ht'.nul _ le_rfl⟩

/-- **The read buffer.** In a run from a closed slot, at each entry to `process_read` and each round of
its loop the cursors are below the end of the buffer and a NUL is left behind them, exactly when no
`process_read` is entered with a buffer full of received bytes. -/
theorem read_buffer_iff {c₀ : HttpConn} {ops : List ConnOp} {t : HttpConn × SlotPhase}
    (hr : Run ConnStep (c₀, .closed) ops t) :
    Run.Always ConnStep (fun s => ∀ l, s.2 = .reading l → Terminated s.1 l) (c₀, .closed) ops ↔
      ∀ pre, pre ++ [.enter] <+: ops → received pre < READ_BUFFER_SIZE := by
  constructor
  · rintro hall pre ⟨post, rfl⟩
    obtain ⟨u, hrun, -⟩ := hr.split
    obtain ⟨s, hpre, hstep⟩ := hrun.split
    obtain ⟨v, hs, rfl⟩ : ∃ v, ConnStep s .enter v ∧ v = u := by
      cases hstep with
      | cons hs hnil =>
        cases hnil
        exact ⟨_, hs, rfl⟩
    have hc := counts_of_run hpre
    cases hs with
    | enter =>
      have hidx := hc.readIdx nofun
      dsimp only at hidx
      rw [← hidx]
      exact (hall _ _ (List.prefix_append _ _) hrun .ok rfl).head.read_lt
  · intro hfits pre s hpre hrun
    have hc := counts_of_run hrun
    -- since the entry nothing has been received
    have hentered : pre <+: ops → ∀ l, s.2 = .reading l → received pre < READ_BUFFER_SIZE := by
      refine hrun.history (fun pre s => pre <+: ops → ∀ l, s.2 = .reading l →
        received pre < READ_BUFFER_SIZE) (fun _ l hl => by cases hl) ?_
      intro pre s op t ih hs hpre l hl
      rw [received_concat]
      have hpre' : pre <+: ops := (List.prefix_append _ _).trans hpre
      cases hs with
      | enter => exact hfits pre hpre
      | round => exact ih hpre' _ rfl
      | accepted | again | read | closed | leave => cases hl
    intro l hl
    have hne : s.2 ≠ .closed := by
      rw [hl]
      nofun
    exact (hc.inOrder hne).terminated ((hc.readIdx hne).trans_lt (hentered hpre l hl)) l

/-- The first bytes of a request come in two pieces. -/
theorem read_buffer_iff_pieces : ∃ c, Run ConnStep (.unused, .closed)
      [.init, .read [.data [71, 69], .data [84], .again], .enter] (c, .reading .ok) ∧
    Run.Always ConnStep (fun s => ∀ l, s.2 = .reading l → Terminated s.1 l) (.unused, .closed)
      [.init, .read [.data [71, 69], .data [84], .again], .enter] := by
  have ha : Answers unused.init [.data [71, 69], .data [84], .again] :=
    ⟨by decide, by decide, by decide, by decide, trivial⟩
  have hr : Run ConnStep (.unused, .closed)
      [.init, .read [.data [71, 69], .data [84], .again], .enter]
      ((unused.init.receive [71, 69]).receive [84], .reading .ok) :=
    .cons .accepted (.cons (.read ha rfl) (.single .enter))
  refine ⟨_, hr, (read_buffer_iff hr).2 fun pre hpre => ?_⟩
  rcases pre with _ | ⟨a, _ | ⟨b, _ | ⟨c, pre⟩⟩⟩
  · cases (List.cons_prefix_cons.1 hpre).1
  · cases (List.cons_prefix_cons.1 (List.cons_prefix_cons.1 hpre).2).1
  · cases (List.cons_prefix_cons.1 hpre).1
    cases (List.cons_prefix_cons.1 (List.cons_prefix_cons.1 hpre).2).1
    decide
  · obtain ⟨-, hpre⟩ := List.cons_prefix_cons.1 hpre
    obtain ⟨-, hpre⟩ := List.cons_prefix_cons.1 hpre
    have hnil := List.prefix_nil.1 (List.cons_prefix_cons.1 hpre).2
    exact absurd hnil (List.append_ne_nil_of_right_ne_nil _ (List.cons_ne_nil _ _))

/-- 2048 bytes come and the socket has no more. -/
theorem read_buffer_filled : ¬ ∀ (c₀ : HttpConn) (ops : List ConnOp) (c : HttpConn) (s : LineStatus),
    Run ConnStep (c₀, .closed) ops (c, .reading s) → Terminated c s := by
  intro hall
  let chunk : List UInt8 := List.replicate READ_BUFFER_SIZE 71
  have hlen : chunk.length = READ_BUFFER_SIZE := List.length_replicate
  have ha : Answers unused.init [.data chunk, .again] :=
    ⟨by rw [hlen]; decide, hlen.le, trivial⟩
  have hr : Run ConnStep (.unused, .closed) [.init, .read [.data chunk, .again], .enter]
      (unused.init.receive chunk, .reading .ok) :=
    .cons .accepted (.cons (.read ha rfl) (.single .enter))
  have hlt : 0 + chunk.length < READ_BUFFER_SIZE := (hall _ _ _ _ hr).head.read_lt
  omega

end SocketTest.Http
