import SocketTest.Http.Calls

/-!
# The body of a request

`parse_headers` stores the number of a `Content-Length` line, whatever it is; all that is asked of it
later is that it is not 0. `parse_content` adds it to `m_checked_idx` and writes a NUL that many bytes
behind the line. `body_in_bounds` says for which numbers the sum fits an `int` and the byte is in the
buffer: a negative one writes in front of the body, a huge one overflows, and one that fills the
buffer exactly writes the byte behind it.
-/

namespace SocketTest.Http.HttpConn

open SocketTest.Lib

/-! ## Header lines -/

/-- A header line, as `m_read_buf` and the position that `parse_headers` is given. -/
abbrev HeaderLine := Buf × ℕ

/-- `parse_headers` takes a line and `process_read` goes on. -/
def HeaderStep (c : HttpConn) (line : HeaderLine) (c' : HttpConn) : Prop :=
  c.checkState = .header ∧
    ({ c with readBuf := line.1 } : HttpConn).parseHeaders line.2 = (.noRequest, c')

/-- The number of a `Content-Length` line, as it is stored. -/
def lineLength (line : HeaderLine) : Option ℤ :=
  if strncaseeq line.1 line.2 (bytes "Content-Length:") then
    some (toInt32 (atol READ_BUFFER_SIZE line.1
      (strspn READ_BUFFER_SIZE line.1 (line.2 + 15) blanks)))
  else none

/-- The number of the last `Content-Length` line, 0 without one. -/
def lastLength (lines : List HeaderLine) : ℤ := (lines.filterMap lineLength).getLast?.getD 0

theorem lastLength_concat (lines : List HeaderLine) (line : HeaderLine) :
    lastLength (lines ++ [line]) = (lineLength line).getD (lastLength lines) := by
  unfold lastLength
  rw [List.filterMap_append]
  cases h : lineLength line with
  | none => simp [h]
  | some z => simp [h]

theorem lastLength_range (lines : List HeaderLine) :
    -2 ^ 31 ≤ lastLength lines ∧ lastLength lines < 2 ^ 31 := by
  induction lines using List.reverseRecOn with
  | nil => exact ⟨by decide, by decide⟩
  | append_singleton lines line ih =>
    rw [lastLength_concat]
    unfold lineLength
    split_ifs
    · exact toInt32_range _
    · exact ih

/-- A line that begins like `Content-Length:` is neither empty nor a `Connection:` line. -/
theorem contentLength_line {buf : Buf} {p : ℕ}
    (h : strncaseeq buf p (bytes "Content-Length:") = true) :
    buf p ≠ NUL ∧ strncaseeq buf p (bytes "Connection:") = false := by
  have h0 : toLower (buf p) = 99 ∧ toLower (buf (p + 3)) = 116 := by
    rw [show bytes "Content-Length:" = [67, 111, 110, 116, 101, 110, 116, 45, 76, 101, 110, 103, 116,
      104, 58] from rfl] at h
    simp only [strncaseeq, Bool.decide_and, Bool.and_eq_true, decide_eq_true_eq] at h
    exact ⟨h.1, h.2.2.2.1⟩
  constructor
  · intro hn
    rw [hn] at h0
    exact absurd h0.1 (by decide)
  · rw [← Bool.not_eq_true]
    intro hc
    rw [show bytes "Connection:" = [67, 111, 110, 110, 101, 99, 116, 105, 111, 110, 58] from rfl] at hc
    simp only [strncaseeq, Bool.decide_and, Bool.and_eq_true, decide_eq_true_eq] at hc
    have h3 := hc.2.2.2.1
    rw [h0.2] at h3
    exact absurd h3 (by decide)

theorem parseHeaders_contentLength (c : HttpConn) (text : ℕ) :
    (c.parseHeaders text).2.contentLength =
      (lineLength (c.readBuf, text)).getD c.contentLength := by
  unfold lineLength
  by_cases hcl : strncaseeq c.readBuf text (bytes "Content-Length:") = true
  · obtain ⟨hnul, hconn⟩ := contentLength_line hcl
    rw [parseHeaders, if_neg hnul, if_neg (by rw [hconn]; simp), if_pos hcl, if_pos hcl]
    rfl
  · rw [if_neg hcl]
    unfold parseHeaders
    rw [if_neg hcl]
    split_ifs <;> rfl

theorem parseHeaders_content {c : HttpConn} {text : ℕ} (hst : c.checkState = .header)
    (h : (c.parseHeaders text).2.checkState = .content) :
    (c.parseHeaders text).2.contentLength ≠ 0 := by
  unfold parseHeaders at h ⊢
  split_ifs at h ⊢ with h1 h2
  · exact h2
  all_goals exact absurd (hst.symm.trans h) (by decide)

/-- After any header lines the length is that of the last `Content-Length` line, and the check state
is `CHECK_STATE_CONTENT` only when it is not 0. -/
theorem headers_length {c₀ c : HttpConn} {lines : List HeaderLine} (hst : c₀.checkState = .header)
    (h0 : c₀.contentLength = 0) (hr : Run HeaderStep c₀ lines c) :
    c.contentLength = lastLength lines ∧ (c.checkState = .content → c.contentLength ≠ 0) := by
  refine hr.history (fun lines c => c.contentLength = lastLength lines ∧
    (c.checkState = .content → c.contentLength ≠ 0)) ?_ ?_
  · refine ⟨h0, fun hc => ?_⟩
    rw [hst] at hc
    cases hc
  · rintro lines s line t ⟨hlen, -⟩ ⟨hs, ht⟩
    obtain rfl : (({ s with readBuf := line.1 } : HttpConn).parseHeaders line.2).2 = t :=
      congrArg Prod.snd ht
    refine ⟨?_, parseHeaders_content hs⟩
    rw [parseHeaders_contentLength, lastLength_concat, ← hlen]

/-! ## The byte written -/

/-- The position of the byte that `parse_content` writes, when it writes one. -/
def bodyWrite (c : HttpConn) (text : ℕ) : Option ℤ :=
  if c.bodyRead then some (text + c.contentLength) else none

theorem parseContent_eq (c : HttpConn) (text : ℕ) :
    c.parseContent text =
      match c.bodyWrite text with
      | none => (.noRequest, c)
      | some i => (.getRequest, c.putAt i NUL) := by
  unfold parseContent bodyWrite
  split_ifs <;> rfl

/-- `m_start_line = m_checked_idx = s` and `m_read_idx = r`. -/
def withCursors (c : HttpConn) (s r : ℕ) : HttpConn :=
  { c with startLine := s, checkedIdx := s, readIdx := r }

/-- The sum in `parse_content` fits an `int`, and the byte written is behind the start of the line and
in the buffer. -/
def BodyInBounds (c : HttpConn) : Prop :=
  (-2 ^ 31 ≤ c.contentLength + c.checkedIdx ∧ c.contentLength + c.checkedIdx < 2 ^ 31) ∧
    ∀ i ∈ c.bodyWrite c.startLine, c.startLine ≤ i ∧ i < READ_BUFFER_SIZE

/-- In bounds, `parse_content` records no fault. -/
theorem BodyInBounds.faults {c : HttpConn} (h : BodyInBounds c) :
    (c.parseContent c.startLine).2.faults = c.faults := by
  rw [parseContent_eq]
  cases hw : c.bodyWrite c.startLine with
  | none => rfl
  | some i =>
    obtain ⟨h1, h2⟩ := h.2 i hw
    show (c.putAt i NUL).faults = c.faults
    unfold putAt
    rw [if_pos ⟨by omega, h2⟩]
    rfl

theorem bodyInBounds_iff {c : HttpConn} {s r : ℕ} (hs : s ≤ r) (hr : r ≤ READ_BUFFER_SIZE)
    (hrange : -2 ^ 31 ≤ c.contentLength ∧ c.contentLength < 2 ^ 31) (hne : c.contentLength ≠ 0) :
    BodyInBounds (c.withCursors s r) ↔ 0 < c.contentLength ∧ c.contentLength + s < 2 ^ 31 ∧
      ¬ (c.contentLength + s = READ_BUFFER_SIZE ∧ r = READ_BUFFER_SIZE) := by
  have hsize : READ_BUFFER_SIZE = 2048 := rfl
  have hread : (c.withCursors s r).bodyRead = decide (toInt32 (c.contentLength + s) ≤ r) := rfl
  have hstart : (c.withCursors s r).startLine = s := rfl
  have hsum : (c.withCursors s r).contentLength + (c.withCursors s r).checkedIdx =
      c.contentLength + s := rfl
  have hwrite : ∀ i, i ∈ (c.withCursors s r).bodyWrite s ↔
      toInt32 (c.contentLength + s) ≤ r ∧ s + c.contentLength = i := by
    intro i
    unfold bodyWrite
    rw [hread]
    by_cases hle : toInt32 (c.contentLength + s) ≤ r
    · rw [if_pos (decide_eq_true hle)]
      simp [hle, withCursors]
    · rw [if_neg (by simpa using hle)]
      simp [hle]
  unfold BodyInBounds
  rw [hstart, hsum]
  constructor
  · rintro ⟨⟨hlo, hhi⟩, hw⟩
    have hkeep : toInt32 (c.contentLength + s) = c.contentLength + s := toInt32_eq_self.mpr ⟨hlo, hhi⟩
    have hw' : c.contentLength + s ≤ r → s ≤ s + c.contentLength ∧
        s + c.contentLength < READ_BUFFER_SIZE := fun hle =>
      hw _ ((hwrite _).mpr ⟨hkeep.trans_le hle, rfl⟩)
    refine ⟨?_, hhi, ?_⟩
    · by_contra hneg
      have := hw' (by omega)
      omega
    · rintro ⟨hfull, hr'⟩
      have := hw' (by omega)
      omega
  · rintro ⟨hpos, hhi, hfull⟩
    have hlo : -2 ^ 31 ≤ c.contentLength + s := by omega
    have hkeep : toInt32 (c.contentLength + s) = c.contentLength + s := toInt32_eq_self.mpr ⟨hlo, hhi⟩
    refine ⟨⟨hlo, hhi⟩, fun i hi => ?_⟩
    obtain ⟨hle, rfl⟩ := (hwrite i).mp hi
    rw [hkeep] at hle
    omega

/-- **Body bounds.** Whatever header lines lead to `CHECK_STATE_CONTENT` and wherever the cursors
are, `parse_content` stays in bounds exactly when the last `Content-Length` is positive, the body's
end fits an `int`, and the body does not end with the last byte of a full buffer. -/
theorem body_in_bounds {c₀ c : HttpConn} {lines : List HeaderLine} (hst : c₀.checkState = .header)
    (h0 : c₀.contentLength = 0) (hrun : Run HeaderStep c₀ lines c) (hc : c.checkState = .content)
    {s r : ℕ} (hs : s ≤ r) (hr : r ≤ READ_BUFFER_SIZE) :
    BodyInBounds (c.withCursors s r) ↔ 0 < lastLength lines ∧ lastLength lines + s < 2 ^ 31 ∧
      ¬ (lastLength lines + s = READ_BUFFER_SIZE ∧ r = READ_BUFFER_SIZE) := by
  obtain ⟨hlen, hne⟩ := headers_length hst h0 hrun
  rw [← hlen]
  exact bodyInBounds_iff hs hr (hlen ▸ lastLength_range lines) (hne hc)

/-- The bytes of a line, and NUL behind them. -/
def bufOf (text : List UInt8) : Buf := fun i => text.getD i NUL

/-- The headers of a request whose only header line is `line`. -/
def oneHeader (line : String) : List HeaderLine := [(bufOf (bytes line), 0), (bufOf [], 0)]

/-- The connection after them. -/
def afterHeaders (line : String) : HttpConn :=
  (oneHeader line).foldl (fun c l => (({ c with readBuf := l.1 } : HttpConn).parseHeaders l.2).2)
    { unused with checkState := .header }

/-- A body of five bytes that starts at 30 and has come. -/
theorem body_in_bounds_five : BodyInBounds ((afterHeaders "Content-Length: 5").withCursors 30 40) ↔
    0 < lastLength (oneHeader "Content-Length: 5") ∧
      lastLength (oneHeader "Content-Length: 5") + (30 : ℕ) < 2 ^ 31 ∧
      ¬ (lastLength (oneHeader "Content-Length: 5") + (30 : ℕ) = READ_BUFFER_SIZE ∧
        40 = READ_BUFFER_SIZE) := by
  have hrun : Run HeaderStep { unused with checkState := .header } (oneHeader "Content-Length: 5")
      (afterHeaders "Content-Length: 5") :=
    .cons ⟨rfl, Prod.ext (by decide +kernel) rfl⟩
      (.single ⟨by decide +kernel, Prod.ext (by decide +kernel) rfl⟩)
  exact body_in_bounds rfl rfl hrun (by decide +kernel) (by decide) (by decide)

/-- `Content-Length: -5` makes `parse_content` write five bytes in front of the body. -/
theorem body_before_line : ¬ ∀ (c₀ c : HttpConn) (lines : List HeaderLine) (s r : ℕ),
    c₀.checkState = .header → c₀.contentLength = 0 → Run HeaderStep c₀ lines c →
    c.checkState = .content → s ≤ r → r ≤ READ_BUFFER_SIZE →
    BodyInBounds (c.withCursors s r) := by
  intro hall
  have hrun : Run HeaderStep { unused with checkState := .header } (oneHeader "Content-Length: -5")
      (afterHeaders "Content-Length: -5") :=
    .cons ⟨rfl, Prod.ext (by decide +kernel) rfl⟩
      (.single ⟨by decide +kernel, Prod.ext (by decide +kernel) rfl⟩)
  have hb := hall _ _ _ 30 40 rfl rfl hrun (by decide +kernel) (by decide) (by decide)
  have hwrite : ((afterHeaders "Content-Length: -5").withCursors 30 40).bodyWrite 30 = some 25 := by
    decide +kernel
  exact absurd (hb.2 25 hwrite).1 (by decide)

end SocketTest.Http.HttpConn
