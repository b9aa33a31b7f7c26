import SocketTest.Lib.Crlf
import SocketTest.Http.ParseLine

/-!
# `parse_line` as a splitter

`parse_line` is called again and again: after `LINE_OK` for the next line, after `LINE_OPEN` with the
next chunk appended, until `LINE_BAD`. `Splits` says of the state between two calls what the scan has
found in the whole text, of which only a part may be received; no call depends on where the text was
cut into chunks, since the scan never passes a CR before the byte behind it is there.
-/

namespace SocketTest.Http

open SocketTest.Lib SocketTest.Lib.Loop SocketTest.Lib.Crlf

/-- The caller of `parse_line`: the connection, the chunks to come and the values of
`m_checked_idx` after each `LINE_OK`. -/
structure Splitter where
  conn : HttpConn
  chunks : List (List UInt8)
  ends : List ℕ

/-- One call of `parse_line`, and what its result makes the caller do. -/
def splitRound (s : Splitter) : (LineStatus × Splitter) ⊕ Splitter :=
  let r := s.conn.parseLine
  match r.1 with
  | .ok => .inr { s with conn := r.2, ends := s.ends ++ [r.2.checkedIdx] }
  | .bad => .inl (.bad, { s with conn := r.2 })
  | .opened =>
    match s.chunks with
    | [] => .inl (.opened, { s with conn := r.2 })
    | chunk :: chunks => .inr { s with conn := r.2.receive chunk, chunks := chunks }

/-- The last result of `parse_line` on the text. -/
def splitStatus (w : List UInt8) : LineStatus := if limit w < w.length then .bad else .opened

/-- Where the scan of the text stops: at a bare LF, at a CR that comes last, or at the end. -/
def splitEnd (w : List UInt8) : ℕ :=
  if limit w < w.length then limit w
  else if byte w (w.length - 1) = CR then w.length - 1
  else w.length

/-- The splitting of the text `w`, received on the connection `c₀`, has ended. -/
structure SplitsTo (w : List UInt8) (c₀ : HttpConn) (r : LineStatus × Splitter) : Prop where
  status : r.1 = splitStatus w
  ends : r.2.ends = lineEnds w (limit w)
  checked : r.2.conn.checkedIdx = splitEnd w
  buf : ∀ i < r.2.conn.readIdx, r.2.conn.readBuf i = cut w (limit w) i
  rest : ∀ i, r.2.conn.readIdx ≤ i → r.2.conn.readBuf i = c₀.readBuf i
  read_le : r.2.conn.readIdx ≤ w.length
  all : r.1 = .opened → r.2.conn.readIdx = w.length

namespace HttpConn

variable {w : List UInt8} {c₀ c : HttpConn} {ends : List ℕ} {n : ℕ}

/-- The scan of the text `w` has come to `m_checked_idx` and found the line ends `ends`. -/
structure Scans (w : List UInt8) (c₀ c : HttpConn) (ends : List ℕ) : Prop where
  checked_le : c.checkedIdx ≤ c.readIdx
  read_le : c.readIdx ≤ w.length
  between : Between w c.checkedIdx
  /-- a CR is passed only when the byte behind it is there -/
  passed : ∀ i, i + 1 = c.checkedIdx → byte w i = CR → c.checkedIdx < c.readIdx
  ends : ends = lineEnds w c.checkedIdx
  buf : ∀ i < c.readIdx, c.readBuf i = cut w c.checkedIdx i
  rest : ∀ i, c.readIdx ≤ i → c.readBuf i = c₀.readBuf i

/-- What is not scanned is as it was received. -/
theorem Scans.byte_eq (s : Scans w c₀ c ends) {i : ℕ} (hi : c.checkedIdx ≤ i) (hr : i < c.readIdx) :
    c.readBuf i = byte w i := by
  rw [s.buf i hr, s.between.cut_eq hi]

/-- `++m_checked_idx` past a byte that is no LF and starts no line end. -/
theorem Scans.next (s : Scans w c₀ c ends) (hlt : c.checkedIdx < c.readIdx)
    (hLF : byte w c.checkedIdx ≠ LF) (hat : crlfAt w c.checkedIdx = false)
    (hCR : byte w c.checkedIdx = CR → c.checkedIdx + 1 < c.readIdx) :
    Scans w c₀ (c.moveTo (c.checkedIdx + 1)) ends where
  checked_le := hlt
  read_le := s.read_le
  between := s.between.next hLF hat
  passed i hi h := by
    obtain rfl : i = c.checkedIdx := Nat.succ.inj hi
    exact hCR h
  ends := s.ends.trans (lineEnds_succ hat).symm
  buf i hi := (s.buf i hi).trans (cut_succ hat i).symm
  rest := s.rest

/-- The line ends with the CR LF at `m_checked_idx`. -/
theorem Scans.line (s : Scans w c₀ c ends) (hlt : c.checkedIdx + 1 < c.readIdx)
    (hat : crlfAt w c.checkedIdx = true) :
    Scans w c₀ (c.takeLine c.checkedIdx) (ends ++ [c.checkedIdx + 2]) where
  checked_le := hlt
  read_le := s.read_le
  between := s.between.line hat
  passed i hi h := by
    obtain rfl : i = c.checkedIdx + 1 := Nat.succ.inj hi
    rw [(crlfAt_iff.mp hat).2] at h
    cases h
  ends := by
    rw [takeLine_checkedIdx, lineEnds_succ (crlfAt_succ hat), lineEnds_line hat, ← s.ends]
  buf i hi := by
    rw [takeLine_checkedIdx, takeLine_readBuf, cut_succ (crlfAt_succ hat), cut_line hat]
    by_cases h1 : i = c.checkedIdx + 1
    · rw [h1, Function.update_self, Function.update_self]
    rw [Function.update_of_ne h1, Function.update_of_ne h1]
    by_cases h0 : i = c.checkedIdx
    · rw [h0, Function.update_self, Function.update_self]
    rw [Function.update_of_ne h0, Function.update_of_ne h0]
    exact s.buf i hi
  rest i hi := by
    have hi' : c.readIdx ≤ i := hi
    rw [takeLine_readBuf, Function.update_of_ne (by omega), Function.update_of_ne (by omega)]
    exact s.rest i hi'

/-- The next chunk of the text is appended. -/
theorem Scans.receive (s : Scans w c₀ c ends) {chunk rest : List UInt8}
    (hw : chunk ++ rest = w.drop c.readIdx) : Scans w c₀ (c.receive chunk) ends := by
  have hlen : c.readIdx + chunk.length ≤ w.length := by
    have hle := s.read_le
    have hsum := congrArg List.length hw
    rw [List.length_append, List.length_drop] at hsum
    omega
  have hchunk : ∀ i < chunk.length, chunk.getD i NUL = byte w (c.readIdx + i) := by
    intro i hi
    have hget := congrArg (fun l => List.getD l i NUL) hw
    rw [List.getD_append _ _ _ _ hi] at hget
    rw [hget]
    simp [byte, List.getD_eq_getElem?_getD, List.getElem?_drop]
  have hle := s.checked_le
  constructor
  · exact hle.trans (Nat.le_add_right _ _)
  · exact hlen
  · exact s.between
  · intro i hi h
    exact (s.passed i hi h).trans_le (Nat.le_add_right _ _)
  · exact s.ends
  · intro i hi
    have hi' : i < c.readIdx + chunk.length := hi
    show (if c.readIdx ≤ i ∧ i < c.readIdx + chunk.length then chunk.getD (i - c.readIdx) NUL
      else c.readBuf i) = cut w c.checkedIdx i
    split_ifs with h
    · rw [hchunk _ (by omega), Nat.add_sub_cancel' h.1, s.between.cut_eq (hle.trans h.1)]
    · exact s.buf i (by omega)
  · intro i hi
    have hi' : c.readIdx + chunk.length ≤ i := hi
    show (if c.readIdx ≤ i ∧ i < c.readIdx + chunk.length then chunk.getD (i - c.readIdx) NUL
      else c.readBuf i) = c₀.readBuf i
    rw [if_neg (by omega)]
    exact s.rest i (by omega)

/-- What a call of `parse_line` does to the scan of the text. -/
inductive Scanned (w : List UInt8) (c₀ : HttpConn) (ends : List ℕ) : LineStatus × HttpConn → Prop
  | line {c : HttpConn} : Scans w c₀ c (ends ++ [c.checkedIdx]) → Scanned w c₀ ends (.ok, c)
  | bad {c : HttpConn} : Scans w c₀ c ends → c.checkedIdx < c.readIdx →
      bareAt w c.checkedIdx = true → Scanned w c₀ ends (.bad, c)
  | atEnd {c : HttpConn} : Scans w c₀ c ends → c.checkedIdx = c.readIdx →
      Scanned w c₀ ends (.opened, c)
  | trailingCR {c : HttpConn} : Scans w c₀ c ends → c.checkedIdx + 1 = c.readIdx →
      byte w c.checkedIdx = CR → Scanned w c₀ ends (.opened, c)

/-- The branch for a CR in front of `m_checked_idx` is not reached: such a CR has been left for the
next call, which finds the LF behind it. -/
theorem Scans.no_cr (s : Scans w c₀ c ends) (hlt : c.checkedIdx < c.readIdx)
    (hLF : byte w c.checkedIdx = LF) : ¬ (1 < c.checkedIdx ∧ c.readBuf (c.checkedIdx - 1) = CR) := by
  rintro ⟨h1, hCR⟩
  have hb := (bareAt_iff.mp (s.between.bare_of_LF hLF)).2
  rw [s.buf _ (by omega)] at hCR
  unfold cut at hCR
  split_ifs at hCR
  · cases hCR
  · exact hb ⟨by omega, hCR⟩

theorem parseLineLoop_scanned (s : Scans w c₀ c ends) (hn : c.checkedIdx + n = c.readIdx) :
    Scanned w c₀ ends (parseLineLoop n c) := by
  induction n generalizing c with
  | zero => exact .atEnd s hn
  | succ n ih =>
    have hlt : c.checkedIdx < c.readIdx := by omega
    have hbyte := s.byte_eq le_rfl hlt
    have hnext : ∀ s' : Scans w c₀ (c.moveTo (c.checkedIdx + 1)) ends,
        Scanned w c₀ ends (parseLineLoop n (c.moveTo (c.checkedIdx + 1))) := by
      intro s'
      refine ih s' ?_
      rw [moveTo_checkedIdx, moveTo_readIdx]
      omega
    rw [parseLineLoop]
    by_cases hCR : c.readBuf c.checkedIdx = CR
    · rw [if_pos hCR]
      have hCR' : byte w c.checkedIdx = CR := hbyte ▸ hCR
      by_cases hend : c.checkedIdx + 1 = c.readIdx
      · rw [if_pos hend]
        exact .trailingCR s hend hCR'
      · rw [if_neg hend]
        have hlt' : c.checkedIdx + 1 < c.readIdx := by omega
        have hbyte' := s.byte_eq (Nat.le_succ _) hlt'
        by_cases hLF : c.readBuf (c.checkedIdx + 1) = LF
        · rw [if_pos hLF]
          exact .line (s.line hlt' (crlfAt_iff.mpr ⟨hCR', hbyte' ▸ hLF⟩))
        · rw [if_neg hLF]
          refine hnext (s.next hlt ?_ ?_ fun _ => hlt')
          · rw [hCR']
            decide
          · rw [← Bool.not_eq_true, crlfAt_iff]
            exact fun h => hLF (hbyte'.trans h.2)
    · rw [if_neg hCR]
      have hCR' : byte w c.checkedIdx ≠ CR := hbyte ▸ hCR
      by_cases hLF : c.readBuf c.checkedIdx = LF
      · rw [if_pos hLF, if_neg (s.no_cr hlt (hbyte ▸ hLF))]
        exact .bad s hlt (s.between.bare_of_LF (hbyte ▸ hLF))
      · rw [if_neg hLF]
        refine hnext (s.next hlt (hbyte ▸ hLF) ?_ fun h => absurd h hCR')
        rw [← Bool.not_eq_true, crlfAt_iff]
        exact fun h => hCR' h.1

theorem parseLine_scanned (s : Scans w c₀ c ends) : Scanned w c₀ ends c.parseLine :=
  parseLineLoop_scanned s (Nat.add_sub_cancel' s.checked_le)

/-- The scan has stopped at a bare LF. -/
theorem Scans.splitsTo_bad (s : Scans w c₀ c ends) (hlt : c.checkedIdx < c.readIdx)
    (hb : bareAt w c.checkedIdx = true) (chunks : List (List UInt8)) :
    SplitsTo w c₀ (.bad, ⟨c, chunks, ends⟩) := by
  have hlim := limit_eq_of_bare hb s.between.bare
  have hless : limit w < w.length := by
    rw [hlim]
    exact hlt.trans_le s.read_le
  refine ⟨?_, ?_, ?_, ?_, s.rest, s.read_le, fun h => by cases h⟩
  · exact (if_pos hless).symm
  · rw [hlim]
    exact s.ends
  · exact hlim.symm.trans (if_pos hless).symm
  · rw [hlim]
    exact s.buf

/-- The scan has come to the end of the text. -/
theorem Scans.splitsTo_end (s : Scans w c₀ c ends) (hend : c.checkedIdx = c.readIdx)
    (hall : c.readIdx = w.length) (chunks : List (List UInt8)) :
    SplitsTo w c₀ (.opened, ⟨c, chunks, ends⟩) := by
  have hw : c.checkedIdx = w.length := hend.trans hall
  have hlim : limit w = c.checkedIdx := by
    rw [hw]
    exact limit_eq_length fun i hi => s.between.bare i (hi.trans_eq hw.symm)
  have hnless : ¬ limit w < w.length := by omega
  have hCR : byte w (w.length - 1) ≠ CR := by
    intro h
    by_cases h0 : w.length = 0
    · rw [byte_eq_nul (by omega)] at h
      cases h
    · have := s.passed (w.length - 1) (by omega) h
      omega
  refine ⟨?_, ?_, ?_, ?_, s.rest, s.read_le, fun _ => hall⟩
  · exact (if_neg hnless).symm
  · rw [hlim]
    exact s.ends
  · rw [splitEnd, if_neg hnless, if_neg hCR]
    exact hw
  · rw [hlim]
    exact s.buf

/-- The scan has stopped at a CR that is the last byte of the text. -/
theorem Scans.splitsTo_cr (s : Scans w c₀ c ends) (hend : c.checkedIdx + 1 = c.readIdx)
    (hCR : byte w c.checkedIdx = CR) (hall : c.readIdx = w.length) (chunks : List (List UInt8)) :
    SplitsTo w c₀ (.opened, ⟨c, chunks, ends⟩) := by
  have hw : c.checkedIdx + 1 = w.length := hend.trans hall
  have hat : crlfAt w c.checkedIdx = false := by
    rw [← Bool.not_eq_true]
    exact fun h => absurd (crlfAt_lt h) (by omega)
  have hLF : byte w c.checkedIdx ≠ LF := by
    rw [hCR]
    decide
  have hlim : limit w = c.checkedIdx + 1 := by
    rw [hw]
    exact limit_eq_length fun i hi => (s.between.next hLF hat).bare i (hi.trans_eq hw.symm)
  have hnless : ¬ limit w < w.length := by omega
  refine ⟨?_, ?_, ?_, ?_, s.rest, s.read_le, fun _ => hall⟩
  · exact (if_neg hnless).symm
  · rw [hlim, lineEnds_succ hat]
    exact s.ends
  · rw [splitEnd, if_neg hnless, ← hw, Nat.add_sub_cancel, if_pos hCR]
  · intro i hi
    rw [hlim, cut_succ hat]
    exact s.buf i hi

end HttpConn

open HttpConn

/-- The state of the caller before a call: the chunks to come are the rest of the text. -/
structure Splits (w : List UInt8) (c₀ : HttpConn) (s : Splitter) : Prop where
  scans : Scans w c₀ s.conn s.ends
  toCome : s.chunks.flatten = w.drop s.conn.readIdx

section Rounds

variable {w : List UInt8} {c₀ : HttpConn} {s s' : Splitter} {r : LineStatus × Splitter}

/-- The bytes not scanned and the chunks to come. -/
def Splitter.left (w : List UInt8) (s : Splitter) : ℕ :=
  s.chunks.length + (w.length - s.conn.checkedIdx)

theorem splitRound_next (sp : Splits w c₀ s) (h : splitRound s = .inr s') :
    (Splits w c₀ s' ∧ s.conn.readIdx ≤ s'.conn.readIdx) ∧ s'.left w < s.left w := by
  have hsc := parseLine_scanned sp.scans
  have hread := parseLine_readIdx s.conn
  have hge := le_parseLine_checked sp.scans.checked_le
  have hgt := parseLine_checked_lt sp.scans.checked_le
  have hle := sp.scans.read_le
  unfold splitRound at h
  generalize s.conn.parseLine = p at h hsc hread hge hgt
  have hopen : ∀ c, Scans w c₀ c s.ends → c.readIdx = s.conn.readIdx →
      s.conn.checkedIdx ≤ c.checkedIdx →
      (match s.chunks with
        | [] => (.inl (.opened, { s with conn := c }) : (LineStatus × Splitter) ⊕ Splitter)
        | chunk :: chunks => .inr { s with conn := c.receive chunk, chunks := chunks }) = .inr s' →
      (Splits w c₀ s' ∧ s.conn.readIdx ≤ s'.conn.readIdx) ∧ s'.left w < s.left w := by
    intro c hs hr hc hm
    have htc := sp.toCome
    unfold Splitter.left
    cases hch : s.chunks with
    | nil =>
      rw [hch] at hm
      cases hm
    | cons chunk chunks =>
      rw [hch] at hm htc
      cases hm
      rw [List.flatten_cons, ← hr] at htc
      have hdrop : chunks.flatten = w.drop (c.readIdx + chunk.length) := by
        rw [← List.drop_drop, ← htc, List.drop_left]
      refine ⟨⟨⟨hs.receive htc, hdrop⟩, ?_⟩, ?_⟩
      · show s.conn.readIdx ≤ c.readIdx + chunk.length
        omega
      · show chunks.length + (w.length - c.checkedIdx) <
          (chunk :: chunks).length + (w.length - s.conn.checkedIdx)
        rw [List.length_cons]
        omega
  cases hsc with
  | @line c hs =>
    cases h
    have hlt := hgt rfl
    have hle' := hs.checked_le
    refine ⟨⟨⟨hs, ?_⟩, hread.ge⟩, ?_⟩
    · exact sp.toCome.trans (congrArg (fun n => w.drop n) hread.symm)
    · show s.chunks.length + (w.length - c.checkedIdx) < _
      unfold Splitter.left
      dsimp only at hlt hread
      omega
  | bad hs _ _ => cases h
  | atEnd hs _ => exact hopen _ hs hread hge h
  | trailingCR hs _ _ => exact hopen _ hs hread hge h

theorem splitRound_exit (sp : Splits w c₀ s) (h : splitRound s = .inl r) :
    SplitsTo w c₀ r ∧ r.2.conn.readIdx = s.conn.readIdx := by
  have hsc := parseLine_scanned sp.scans
  have hread := parseLine_readIdx s.conn
  unfold splitRound at h
  generalize s.conn.parseLine = p at h hsc hread
  have hall : s.chunks = [] → s.conn.readIdx = w.length := by
    intro hch
    have htc := sp.toCome
    rw [hch] at htc
    have hle := sp.scans.read_le
    have := List.drop_eq_nil_iff.mp htc.symm
    omega
  cases hsc with
  | line hs => cases h
  | bad hs hlt hb =>
    cases h
    exact ⟨hs.splitsTo_bad hlt hb _, hread⟩
  | @atEnd c hs hend =>
    cases hch : s.chunks with
    | nil =>
      rw [hch] at h
      cases h
      exact ⟨hs.splitsTo_end hend (hread.trans (hall hch)) _, hread⟩
    | cons chunk chunks =>
      rw [hch] at h
      cases h
  | @trailingCR c hs hend hCR =>
    cases hch : s.chunks with
    | nil =>
      rw [hch] at h
      cases h
      exact ⟨hs.splitsTo_cr hend hCR (hread.trans (hall hch)) _, hread⟩
    | cons chunk chunks =>
      rw [hch] at h
      cases h

/-- From any state between two calls the splitting ends as the text says. -/
theorem Splits.ends (sp : Splits w c₀ s) :
    ∃ r, Ends splitRound s r ∧ SplitsTo w c₀ r ∧ s.conn.readIdx ≤ r.2.conn.readIdx := by
  refine ends_of_variant (I := fun t => Splits w c₀ t ∧ s.conn.readIdx ≤ t.conn.readIdx)
    (Splitter.left w) ?_ ?_ ⟨sp, le_rfl⟩
  · rintro t t' ⟨ht, hle⟩ hround
    obtain ⟨⟨ht', hle'⟩, hlt⟩ := splitRound_next ht hround
    exact ⟨⟨ht', hle.trans hle'⟩, hlt⟩
  · rintro t r ⟨ht, hle⟩ hround
    obtain ⟨hr, hread⟩ := splitRound_exit ht hround
    exact ⟨hr, hle.trans hread.ge⟩

end Rounds

/-- Nothing is received yet. -/
theorem Splits.start {c : HttpConn} (h0 : c.checkedIdx = 0) (hr : c.readIdx = 0)
    (chunks : List (List UInt8)) : Splits chunks.flatten c ⟨c, chunks, []⟩ := by
  refine ⟨⟨?_, ?_, ?_, ?_, ?_, ?_, fun _ _ => rfl⟩, ?_⟩
  · exact (h0.trans hr.symm).le
  · exact hr.le.trans (Nat.zero_le _)
  · rw [h0]
    exact .zero _
  · intro i hi
    have hi' : i + 1 = c.checkedIdx := hi
    omega
  · rw [h0]
    rfl
  · intro i hi
    have hi' : i < c.readIdx := hi
    omega
  · rw [hr]
    rfl

/-- **`parse_line` splits at CR LF, however the text is cut into chunks.** Called on the whole text
and on any chunks of it, it takes a line at each CR LF in front of the first bare LF, rewrites both
of its bytes to NUL and no other byte, and stops with `LINE_BAD` at that LF or else with `LINE_OPEN`:
the ends of the lines, the last result, `m_checked_idx` and the bytes received are the same. -/
theorem parse_line_splits {c : HttpConn} (h0 : c.checkedIdx = 0) (hr : c.readIdx = 0)
    {w : List UInt8} {chunks : List (List UInt8)} (hw : chunks.flatten = w) :
    ∃ whole split, Ends splitRound ⟨c, [w], []⟩ whole ∧ Ends splitRound ⟨c, chunks, []⟩ split ∧
      SplitsTo w c whole ∧ whole.2.conn.readIdx = w.length ∧ SplitsTo w c split ∧
      split.1 = whole.1 ∧ split.2.ends = whole.2.ends ∧
      split.2.conn.checkedIdx = whole.2.conn.checkedIdx ∧
      ∀ i < split.2.conn.readIdx, split.2.conn.readBuf i = whole.2.conn.readBuf i := by
  have hone : [w].flatten = w := by simp
  have hstops : Stops c .opened := .atEnd (h0.trans hr.symm)
  -- the first call finds nothing and the whole text is appended
  have hround : splitRound ⟨c, [w], []⟩ = .inr ⟨c.receive w, [], []⟩ := by
    unfold splitRound
    rw [parseLine_of_stops hstops]
  have hfirst := (splitRound_next (hone ▸ Splits.start h0 hr [w]) hround).1.1
  obtain ⟨whole, hwhole, hto, hread⟩ := hfirst.ends
  obtain ⟨split, hsplit, hto', -⟩ := (hw ▸ Splits.start h0 hr chunks).ends
  have hall : whole.2.conn.readIdx = w.length := by
    have hlen : (c.receive w).readIdx = w.length := by
      show c.readIdx + w.length = w.length
      omega
    exact le_antisymm hto.read_le (hlen.ge.trans hread)
  refine ⟨whole, split, (ends_round hround).mpr hwhole, hsplit, hto, hall, hto', ?_, ?_, ?_, ?_⟩
  · exact hto'.status.trans hto.status.symm
  · exact hto'.ends.trans hto.ends.symm
  · exact hto'.checked.trans hto.checked.symm
  · intro i hi
    rw [hto'.buf i hi, hto.buf i (hall ▸ hi.trans_le hto'.read_le)]

/-- A CR LF cut in two, a CR inside a line, and a bare LF. -/
theorem parse_line_splits_cut :
    let c := HttpConn.unused
    let w : List UInt8 := [71, CR, LF, 72, CR, 73, CR, LF, 74, LF, 75]
    let chunks : List (List UInt8) := [[71, CR], [LF, 72], [], [CR, 73, CR, LF, 74, LF], [75]]
    ∃ whole split, Ends splitRound ⟨c, [w], []⟩ whole ∧ Ends splitRound ⟨c, chunks, []⟩ split ∧
      SplitsTo w c whole ∧ whole.2.conn.readIdx = w.length ∧ SplitsTo w c split ∧
      split.1 = whole.1 ∧ split.2.ends = whole.2.ends ∧
      split.2.conn.checkedIdx = whole.2.conn.checkedIdx ∧
      ∀ i < split.2.conn.readIdx, split.2.conn.readBuf i = whole.2.conn.readBuf i :=
  parse_line_splits rfl rfl rfl

/-- Two lines are taken before the bare LF at 9. -/
example : lineEnds [71, CR, LF, 72, CR, 73, CR, LF, 74, LF, 75] 9 = [3, 8] := by decide

end SocketTest.Http
