import SocketTest.Http.ParseLine

/-!
# The rounds of `process_read`

What a round reads of the connection and what it writes. All writes to `m_read_buf` put a NUL below
`m_read_idx` or where one stands already, so that the bytes from `m_read_idx` on stay NUL (`Clear`).
A round that follows a line that is not complete finds the scan at the same place.
-/

namespace SocketTest.Http.HttpConn

open SocketTest.Lib

variable {c c' : HttpConn} {text : ℕ} {s : LineStatus}

/-! ## `parse_request_line` -/

/-- Blanks of the buffer replaced by NUL. -/
def Blanked (buf buf' : Buf) : Prop := ∀ i, buf' i = buf i ∨ buf i ∈ blanks ∧ buf' i = NUL

theorem Blanked.refl (buf : Buf) : Blanked buf buf := fun _ => .inl rfl

theorem Blanked.update {buf buf' : Buf} {i : ℕ} (h : Blanked buf buf') (hi : buf' i ∈ blanks) :
    Blanked buf (Function.update buf' i NUL) := by
  intro j
  by_cases hj : j = i
  · subst hj
    rw [Function.update_self]
    rcases h j with h | ⟨_, h⟩
    · exact .inr ⟨h ▸ hi, rfl⟩
    · rw [h] at hi
      exact absurd hi (by decide)
  · rw [Function.update_of_ne hj]
    exact h j

theorem parseRequestLine_frame (c : HttpConn) (text : ℕ) : ∃ buf st m u v,
    (c.parseRequestLine text).2
        = { c with readBuf := buf, checkState := st, method := m, url := u, version := v } ∧
      Blanked c.readBuf buf ∧
      ((c.parseRequestLine text).1 = .badRequest ∧ st = c.checkState ∨
        (c.parseRequestLine text).1 = .noRequest ∧ st = .header) := by
  have hrefl := Blanked.refl c.readBuf
  unfold parseRequestLine
  split
  · exact ⟨_, _, _, _, _, rfl, hrefl, .inl ⟨rfl, rfl⟩⟩
  · next u hu =>
    have h1 := hrefl.update (strpbrk_mem hu)
    dsimp only
    split_ifs with hget
    · split
      · exact ⟨_, _, _, _, _, rfl, h1, .inl ⟨rfl, rfl⟩⟩
      · next v hv =>
        have h2 := h1.update (strpbrk_mem hv)
        split_ifs with hversion hscheme
        · split
          · exact ⟨_, _, _, _, _, rfl, h2, .inl ⟨rfl, rfl⟩⟩
          · split_ifs
            · exact ⟨_, _, _, _, _, rfl, h2, .inr ⟨rfl, rfl⟩⟩
            · exact ⟨_, _, _, _, _, rfl, h2, .inl ⟨rfl, rfl⟩⟩
        · dsimp only
          split_ifs
          · exact ⟨_, _, _, _, _, rfl, h2, .inr ⟨rfl, rfl⟩⟩
          · exact ⟨_, _, _, _, _, rfl, h2, .inl ⟨rfl, rfl⟩⟩
        · exact ⟨_, _, _, _, _, rfl, h2, .inl ⟨rfl, rfl⟩⟩
    · exact ⟨_, _, _, _, _, rfl, h1, .inl ⟨rfl, rfl⟩⟩

@[simp] theorem parseRequestLine_checkedIdx (c : HttpConn) (text : ℕ) :
    (c.parseRequestLine text).2.checkedIdx = c.checkedIdx := by
  obtain ⟨buf, st, m, u, v, h, -, -⟩ := parseRequestLine_frame c text
  rw [h]

@[simp] theorem parseRequestLine_readIdx (c : HttpConn) (text : ℕ) :
    (c.parseRequestLine text).2.readIdx = c.readIdx := by
  obtain ⟨buf, st, m, u, v, h, -, -⟩ := parseRequestLine_frame c text
  rw [h]

@[simp] theorem parseRequestLine_startLine (c : HttpConn) (text : ℕ) :
    (c.parseRequestLine text).2.startLine = c.startLine := by
  obtain ⟨buf, st, m, u, v, h, -, -⟩ := parseRequestLine_frame c text
  rw [h]

@[simp] theorem parseRequestLine_contentLength (c : HttpConn) (text : ℕ) :
    (c.parseRequestLine text).2.contentLength = c.contentLength := by
  obtain ⟨buf, st, m, u, v, h, -, -⟩ := parseRequestLine_frame c text
  rw [h]

theorem parseRequestLine_blanked (c : HttpConn) (text : ℕ) :
    Blanked c.readBuf (c.parseRequestLine text).2.readBuf := by
  obtain ⟨buf, st, m, u, v, h, hb, -⟩ := parseRequestLine_frame c text
  rw [h]
  exact hb

theorem parseRequestLine_rejects {c : HttpConn} {text : ℕ}
    (h : (c.parseRequestLine text).1 = .badRequest) :
    (c.parseRequestLine text).2.checkState = c.checkState := by
  obtain ⟨buf, st, m, u, v, hr, -, ⟨-, hst⟩ | ⟨hno, -⟩⟩ := parseRequestLine_frame c text
  · rw [hr]
    exact hst
  · rw [hno] at h
    cases h

theorem parseRequestLine_accepts {c : HttpConn} {text : ℕ}
    (h : (c.parseRequestLine text).1 ≠ .badRequest) :
    (c.parseRequestLine text).2.checkState = .header := by
  obtain ⟨buf, st, m, u, v, hr, -, ⟨hbad, -⟩ | ⟨-, hst⟩⟩ := parseRequestLine_frame c text
  · exact absurd hbad h
  · rw [hr]
    exact hst

/-! ## `parse_headers` -/

theorem parseHeaders_frame (c : HttpConn) (text : ℕ) : ∃ st n l h,
    (c.parseHeaders text).2
        = { c with checkState := st, contentLength := n, linger := l, host := h } ∧
      (st = c.checkState ∨ st = .content) ∧ (c.parseHeaders text).1 ≠ .badRequest := by
  unfold parseHeaders
  split_ifs
  · exact ⟨_, _, _, _, rfl, .inr rfl, by simp⟩
  · exact ⟨_, _, _, _, rfl, .inl rfl, by simp⟩
  · exact ⟨_, _, _, _, rfl, .inl rfl, by simp⟩
  · exact ⟨_, _, _, _, rfl, .inl rfl, by simp⟩
  · exact ⟨_, _, _, _, rfl, .inl rfl, by simp⟩
  · exact ⟨_, _, _, _, rfl, .inl rfl, by simp⟩

/-- `c'` has the buffer and the cursors of `c`. -/
structure SameScan (c c' : HttpConn) : Prop where
  readBuf : c'.readBuf = c.readBuf
  readIdx : c'.readIdx = c.readIdx
  checkedIdx : c'.checkedIdx = c.checkedIdx
  startLine : c'.startLine = c.startLine

/-- `m_check_state = CHECK_STATE_CONTENT`. -/
def toContent (c : HttpConn) : HttpConn := { c with checkState := .content }

theorem SameScan.toContent (c : HttpConn) : SameScan c c.toContent := ⟨rfl, rfl, rfl, rfl⟩

theorem parseHeaders_get (h : c.readBuf text = NUL) (h0 : c.contentLength = 0) :
    c.parseHeaders text = (.getRequest, c) := by
  rw [parseHeaders, if_pos h, if_neg (not_not.2 h0)]

theorem parseHeaders_body (h : c.readBuf text = NUL) (h0 : c.contentLength ≠ 0) :
    c.parseHeaders text = (.noRequest, c.toContent) := by
  rw [parseHeaders, if_pos h, if_pos h0]
  rfl

theorem parseHeaders_line (h : c.readBuf text ≠ NUL) : ∃ c',
    c.parseHeaders text = (.noRequest, c') ∧ SameScan c c' ∧ c'.checkState = c.checkState := by
  rw [parseHeaders, if_neg h]
  split_ifs
  · exact ⟨_, rfl, ⟨rfl, rfl, rfl, rfl⟩, rfl⟩
  · exact ⟨_, rfl, ⟨rfl, rfl, rfl, rfl⟩, rfl⟩
  · exact ⟨_, rfl, ⟨rfl, rfl, rfl, rfl⟩, rfl⟩
  · exact ⟨_, rfl, ⟨rfl, rfl, rfl, rfl⟩, rfl⟩

/-- A line that starts with the CR or the LF the scan stopped at is no header and is skipped. -/
theorem parseHeaders_lineEnd (h : c.readBuf text = CR ∨ c.readBuf text = LF) :
    c.parseHeaders text = (.noRequest, c) := by
  have hne : ∀ b : UInt8, toLower b ≠ 13 → toLower b ≠ 10 → ∀ s,
      strncaseeq c.readBuf text (b :: s) = false := by
    intro b h13 h10 s
    rcases h with h | h <;> simp [strncaseeq, h] <;> intro hb
    · exact absurd hb.symm h13
    · exact absurd hb.symm h10
  have hnul : c.readBuf text ≠ NUL := by
    rcases h with h | h <;> rw [h] <;> decide
  rw [parseHeaders, if_neg hnul,
    show bytes "Connection:" = 67 :: bytes "onnection:" from rfl,
    show bytes "Content-Length:" = 67 :: bytes "ontent-Length:" from rfl,
    show bytes "Host:" = 72 :: bytes "ost:" from rfl,
    hne 67 (by decide) (by decide), hne 67 (by decide) (by decide), hne 72 (by decide) (by decide)]
  rfl

/-! ## What is behind `m_read_idx` -/

/-- The scan is within the bytes received and the rest of the buffer is NUL. -/
structure Clear (c : HttpConn) : Prop where
  checked_le : c.checkedIdx ≤ c.readIdx
  nul : ∀ i, c.readIdx ≤ i → c.readBuf i = NUL

/-- The cursors stay, only NUL is written, and the response is left alone. -/
structure Keeps (c c' : HttpConn) : Prop where
  readIdx : c'.readIdx = c.readIdx
  checkedIdx : c'.checkedIdx = c.checkedIdx
  readBuf : ∀ i, c'.readBuf i = c.readBuf i ∨ c'.readBuf i = NUL
  checkState : c.checkState ≠ .requestLine → c'.checkState ≠ .requestLine
  writeIdx : c'.writeIdx = c.writeIdx

theorem Clear.keeps (h : Clear c) (hk : Keeps c c') : Clear c' := by
  constructor
  · rw [hk.checkedIdx, hk.readIdx]
    exact h.checked_le
  · intro i hi
    rw [hk.readIdx] at hi
    rcases hk.readBuf i with hb | hb
    · rw [hb, h.nul i hi]
    · exact hb

theorem Clear.parseLine (h : Clear c) : Clear c.parseLine.2 := by
  have hp := parseLine_spec h.checked_le
  generalize c.parseLine = r at hp
  cases hp with
  | stopped _ hi _ _ => exact ⟨hi, h.nul⟩
  | @line i _ hi _ _ =>
    apply Clear.mk hi
    intro j hj
    have hj' : c.readIdx ≤ j := hj
    rw [takeLine_readBuf, Function.update_of_ne (by omega), Function.update_of_ne (by omega)]
    exact h.nul j hj'

theorem Clear.init (c : HttpConn) : Clear c.init := ⟨le_rfl, fun _ _ => rfl⟩

theorem read_eq {chunk : List UInt8} (h : (c.read chunk).1 = true) :
    (c.read chunk).2 = c.receive chunk ∧ c.readIdx + chunk.length ≤ READ_BUFFER_SIZE := by
  unfold read at h ⊢
  by_cases hfull : READ_BUFFER_SIZE ≤ c.readIdx
  · rw [if_pos hfull] at h
    cases h
  · rw [if_neg hfull] at h ⊢
    have hlen := of_decide_eq_true h
    refine ⟨?_, by omega⟩
    dsimp only
    rw [List.take_of_length_le (by omega)]

theorem Clear.receive (h : Clear c) (chunk : List UInt8) : Clear (c.receive chunk) := by
  have hle := h.checked_le
  constructor
  · show c.checkedIdx ≤ c.readIdx + chunk.length
    omega
  · intro i hi
    have hi' : c.readIdx + chunk.length ≤ i := hi
    show (if c.readIdx ≤ i ∧ i < c.readIdx + chunk.length then _ else c.readBuf i) = NUL
    rw [if_neg (by omega)]
    exact h.nul i (by omega)

theorem Keeps.requestLine (c : HttpConn) (text : ℕ) : Keeps c (c.parseRequestLine text).2 := by
  apply Keeps.mk (by simp) (by simp)
  · intro i
    rcases parseRequestLine_blanked c text i with h | ⟨-, h⟩
    · exact .inl h
    · exact .inr h
  · intro hst
    by_cases h : (c.parseRequestLine text).1 = .badRequest
    · rw [parseRequestLine_rejects h]
      exact hst
    · rw [parseRequestLine_accepts h]
      simp
  · obtain ⟨buf, st, m, u, v, h, -, -⟩ := parseRequestLine_frame c text
    rw [h]

theorem Keeps.headers (c : HttpConn) (text : ℕ) : Keeps c (c.parseHeaders text).2 := by
  obtain ⟨st, n, l, h, hr, hst, -⟩ := parseHeaders_frame c text
  rw [hr]
  refine ⟨rfl, rfl, fun i => .inl rfl, ?_, rfl⟩
  intro hne
  rcases hst with hst | hst
  · rw [hst]
    exact hne
  · rw [hst]
    simp

theorem Keeps.content (c : HttpConn) (text : ℕ) : Keeps c (c.parseContent text).2 := by
  unfold parseContent
  split_ifs
  · unfold putAt
    split_ifs
    · refine ⟨rfl, rfl, ?_, id, rfl⟩
      intro i
      by_cases hi : i = (text + c.contentLength).toNat
      · right
        rw [hi]
        exact Function.update_self _ _ _
      · left
        exact Function.update_of_ne hi _ _
    · exact ⟨rfl, rfl, fun i => .inl rfl, id, rfl⟩
  · exact ⟨rfl, rfl, fun i => .inl rfl, id, rfl⟩

/-! ## Rounds -/

/-- The code and state of `parse_request_line` on the line that a call starts with. -/
def pendingLine (c : HttpConn) : HttpCode × HttpConn :=
  c.parseLine.2.nextLine.parseRequestLine c.startLine

/-- The scan goes to the end of the bytes received without finding a line. -/
def RunsOut (c : HttpConn) : Prop := c.parseLine.1 ≠ .ok ∧ c.parseLine.2.checkedIdx = c.readIdx

/-- The scan stops before the end, at a CR that came last or at an LF without a CR. -/
def StopsShort (c : HttpConn) : Prop := c.parseLine.1 ≠ .ok ∧ c.parseLine.2.checkedIdx < c.readIdx

theorem runsOut_or_stopsShort (h : c.checkedIdx ≤ c.readIdx) (hl : c.parseLine.1 ≠ .ok) :
    RunsOut c ∨ StopsShort c := by
  rcases Nat.eq_or_lt_of_le (parseLine_checked_le h) with he | he
  · exact .inl ⟨hl, he⟩
  · exact .inr ⟨hl, he⟩

/-- A round that finds what `line_status` says already ends the loop: with `LINE_OK` that is a
complete line. -/
theorem round_line (hst : c.checkState ≠ .content ∨ s ≠ .ok) (hl : c.parseLine.1 = s) :
    processRound (c, s) = .inl (.code .noRequest, c.parseLine.2) := by
  have hcond : c.loopCond s = (false, c.parseLine.2) := by
    rw [loopCond, if_neg (by tauto), hl]
    simp
  rw [processRound]
  dsimp only
  rw [hcond]
  rfl

theorem loopCond_of_ne (hst : c.checkState ≠ .content ∨ s ≠ .ok) (hl : c.parseLine.1 ≠ s) :
    c.loopCond s = (true, c.parseLine.2) := by
  rw [loopCond, if_neg (by tauto), decide_eq_true hl.symm]

theorem round_requestLine (hst : c.checkState = .requestLine) (hl : c.parseLine.1 ≠ s) :
    processRound (c, s)
      = if c.pendingLine.1 = .badRequest then .inl (.code .badRequest, c.pendingLine.2)
        else .inr (c.pendingLine.2, s) := by
  rw [processRound]
  dsimp only
  rw [loopCond_of_ne (.inl (by rw [hst]; simp)) hl]
  have hst' : c.parseLine.2.nextLine.checkState = .requestLine := by simp [nextLine, hst]
  simp only [hst', if_true, parseLine_startLine]
  rfl

theorem round_header (hst : c.checkState = .header) (hl : c.parseLine.1 ≠ s) :
    processRound (c, s)
      = let r := c.parseLine.2.nextLine.parseHeaders c.startLine
        if r.1 = .getRequest then .inl (.doRequest, r.2) else .inr (r.2, s) := by
  obtain ⟨-, -, -, -, -, -, hbad⟩ :=
    parseHeaders_frame c.parseLine.2.nextLine c.startLine
  rw [processRound]
  dsimp only
  rw [loopCond_of_ne (.inl (by rw [hst]; simp)) hl]
  have hst' : c.parseLine.2.nextLine.checkState = .header := by simp [nextLine, hst]
  simp only [hst', if_true, parseLine_startLine, hbad, if_false]

theorem round_header_get (hst : c.checkState = .header) (hl : c.parseLine.1 ≠ s)
    (h : c.parseLine.2.nextLine.parseHeaders c.startLine = (.getRequest, c')) :
    processRound (c, s) = .inl (.doRequest, c') := by
  rw [round_header hst hl, h]
  rfl

theorem round_header_next (hst : c.checkState = .header) (hl : c.parseLine.1 ≠ s)
    (h : c.parseLine.2.nextLine.parseHeaders c.startLine = (.noRequest, c')) :
    processRound (c, s) = .inr (c', s) := by
  rw [round_header hst hl, h]
  rfl

/-- The body counts as read or the loop goes on with `LINE_OPEN`. -/
theorem round_body {t : HttpConn} (hcond : c.loopCond s = (true, t)) (hst : t.checkState = .content) :
    processRound (c, s)
      = if t.bodyRead then .inl (.doRequest, (t.nextLine.parseContent t.startLine).2)
        else .inr (t.nextLine, .opened) := by
  rw [processRound]
  dsimp only
  rw [hcond]
  have hst' : t.nextLine.checkState = .content := hst
  have hread : t.nextLine.bodyRead = t.bodyRead := rfl
  simp only [hst', if_true, parseContent, hread]
  by_cases hb : t.bodyRead
  · simp [hb]
  · simp [hb]

/-- A round in which the condition holds gives the line to the function for the check state. -/
inductive Parses (t : HttpConn) : HttpConn → Prop
  | requestLine : t.checkState = .requestLine →
      Parses t (t.nextLine.parseRequestLine t.startLine).2
  | headers : t.checkState ≠ .requestLine → Parses t (t.nextLine.parseHeaders t.startLine).2
  | content : t.checkState ≠ .requestLine → Parses t (t.nextLine.parseContent t.startLine).2

theorem Parses.keeps {t : HttpConn} (h : Parses t c') : Keeps t.nextLine c' := by
  cases h with
  | requestLine => exact Keeps.requestLine _ _
  | headers => exact Keeps.headers _ _
  | content => exact Keeps.content _ _

/-- What a round does. It goes to `do_request` from a line behind the request line only. -/
theorem round_parses (c : HttpConn) (s : LineStatus) : ∃ t, (t = c ∨ t = c.parseLine.2) ∧
    (processRound (c, s) = .inl (.code .noRequest, t) ∨ ∃ c', Parses t c' ∧
      ((∃ o, processRound (c, s) = .inl (o, c') ∧ (o = .doRequest → t.checkState ≠ .requestLine)) ∨
        ∃ s', processRound (c, s) = .inr (c', s'))) := by
  obtain ⟨b, t, hcond⟩ : ∃ b t, c.loopCond s = (b, t) := ⟨_, _, rfl⟩
  refine ⟨t, ?_, ?_⟩
  · rw [loopCond] at hcond
    split_ifs at hcond
    · exact .inl (congrArg Prod.snd hcond).symm
    · exact .inr (congrArg Prod.snd hcond).symm
  rw [processRound]
  dsimp only
  rw [hcond]
  dsimp only
  cases b with
  | false => exact .inl rfl
  | true =>
    right
    rw [if_pos rfl]
    have hstate : t.nextLine.checkState = t.checkState := rfl
    split
    · next hst =>
      refine ⟨_, .requestLine hst, ?_⟩
      split_ifs
      · exact .inl ⟨_, rfl, fun h => by cases h⟩
      · exact .inr ⟨_, rfl⟩
    · next hst =>
      have hne : t.checkState ≠ .requestLine := by
        rw [← hstate, hst]
        simp
      refine ⟨_, .headers hne, ?_⟩
      split_ifs
      · exact .inl ⟨_, rfl, fun _ => hne⟩
      · exact .inl ⟨_, rfl, fun _ => hne⟩
      · exact .inr ⟨_, rfl⟩
    · next hst =>
      have hne : t.checkState ≠ .requestLine := by
        rw [← hstate, hst]
        simp
      refine ⟨_, .content hne, ?_⟩
      split_ifs
      · exact .inl ⟨_, rfl, fun _ => hne⟩
      · exact .inr ⟨_, rfl⟩

end SocketTest.Http.HttpConn
