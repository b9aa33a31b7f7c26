import SocketTest.Http.RequestLine
import SocketTest.Http.Requests
import SocketTest.Lib.CrlfLines

/-!
# Dispatch

Each call takes one line off the bytes received. The first call that finds no line left gives the first
line to `parse_request_line`; if it is one, the request is dispatched, whatever the calls before have
taken behind it. `Leaves` follows this through the chunks, without a connection, and `Dispatched` says
with which chunk it comes to `do_request`.

1. A call of `parse_line`, told by `cutLine`.
2. The calls in `CHECK_STATE_REQUESTLINE`.
3. Whole requests.
4. Runs.
-/

namespace SocketTest.Http

open SocketTest.Lib

/-- The text in front of a NUL. -/
def upToNul (s : List UInt8) : List UInt8 := s.takeWhile fun b => b ≠ NUL

/-- What the calls have left of the bytes received: the lines taken, the bytes behind the last line end
that have been refused, the first line since then, and the bytes that are not scanned. -/
structure Waiting where
  lines : List (List UInt8)
  refused : List UInt8
  first : Option (List UInt8)
  rest : List UInt8

/-- What is given to `parse_request_line` when no line is left. -/
def Waiting.text (p : Waiting) (chunk : List UInt8) : List UInt8 := p.first.getD (p.rest ++ chunk)

/-- `read` takes the chunk. -/
def Room (chunks : List (List UInt8)) (chunk : List UInt8) : Prop :=
  chunks.flatten.length < READ_BUFFER_SIZE ∧ chunks.flatten.length + chunk.length ≤ READ_BUFFER_SIZE

/-- What is left of the chunks when no line has been accepted. A text is refused up to a CR that comes
last; behind an LF without a CR nothing is accepted any more. -/
inductive Leaves : List (List UInt8) → Waiting → Prop
  | start : Leaves [] ⟨[], [], none, []⟩
  | line {chunks : List (List UInt8)} {chunk l r : List UInt8} {p : Waiting} (h : Leaves chunks p)
      (hroom : Room chunks chunk) (hcut : cutLine (p.rest ++ chunk) = .found l r) :
      Leaves (chunks ++ [chunk]) ⟨p.lines ++ [p.refused ++ l], [], some (p.first.getD l), r⟩
  | refused {chunks : List (List UInt8)} {chunk u r : List UInt8} {p : Waiting} (h : Leaves chunks p)
      (hroom : Room chunks chunk) (hcut : cutLine (p.rest ++ chunk) = .stop u r)
      (hno : ∀ g : GetLine, g.line ≠ upToNul (p.text chunk)) (hLF : r.head? ≠ some LF) :
      Leaves (chunks ++ [chunk]) ⟨p.lines, p.refused ++ u, none, r⟩

/-- With this chunk the bytes received run out behind an accepted line. -/
structure Dispatched (chunks : List (List UInt8)) (p : Waiting) (chunk : List UInt8) : Prop where
  leaves : Leaves chunks p
  room : Room chunks chunk
  cut : cutLine (p.rest ++ chunk) = .stop (p.rest ++ chunk) []
  accepted : ∃ g : GetLine, g.line = upToNul (p.text chunk)

namespace HttpConn

variable {c₀ c c' : HttpConn} {o : Outcome} {s l r u chunk : List UInt8} {first : Option (List UInt8)}
  {p : Waiting} {chunks : List (List UInt8)}

/-! ## 1. `parse_line` -/

theorem contents_succ (buf : Buf) (p n : ℕ) :
    contents buf p (n + 1) = buf p :: contents buf (p + 1) n := by
  rw [Nat.add_comm, contents_add]
  rfl

theorem contents_cons {buf : Buf} {p : ℕ} {a : UInt8}
    (h : contents buf p (a :: s).length = a :: s) :
    buf p = a ∧ contents buf (p + 1) s.length = s := by
  rw [List.length_cons, contents_succ] at h
  exact List.cons.injEq _ _ _ _ ▸ h

theorem parseLineLoop_found (h : contents c.readBuf c.checkedIdx s.length = s)
    (hidx : c.checkedIdx + s.length = c.readIdx) (hcut : cutLine s = .found l r) :
    parseLineLoop s.length c = (.ok, c.takeLine (c.checkedIdx + l.length)) := by
  induction s generalizing c l with
  | nil => cases hcut
  | cons a s ih =>
    obtain ⟨ha, hs⟩ := contents_cons h
    have hidx' : c.checkedIdx + (s.length + 1) = c.readIdx := hidx
    have hnext : ∀ l', cutLine s = .found l' r → l = a :: l' →
        parseLineLoop s.length { c with checkedIdx := c.checkedIdx + 1 } =
          (.ok, c.takeLine (c.checkedIdx + l.length)) := by
      rintro l' hc rfl
      have hrest := @ih (c.moveTo (c.checkedIdx + 1)) l' hs (by
        rw [moveTo_checkedIdx, moveTo_readIdx]
        omega) hc
      rw [moveTo_takeLine, moveTo_checkedIdx] at hrest
      rw [List.length_cons, Nat.add_comm l'.length, ← Nat.add_assoc]
      exact hrest
    rw [cutLine] at hcut
    rw [List.length_cons, parseLineLoop]
    dsimp only
    rw [ha]
    split_ifs at hcut with hLF hline hend
    · cases hcut
      obtain ⟨rfl, hhead⟩ := hline
      cases s with
      | nil => cases hhead
      | cons b s =>
        cases hhead
        have hb := (contents_cons hs).1
        rw [if_pos rfl, if_neg (by rw [List.length_cons] at hidx'; omega), if_pos hb]
        rfl
    · obtain ⟨l', rfl, hc⟩ := Cut.cons_eq_found hcut
      by_cases hCR : a = CR
      · cases s with
        | nil => exact absurd ⟨hCR, rfl⟩ hend
        | cons b s =>
          have hb := (contents_cons hs).1
          rw [if_pos hCR, if_neg (by rw [List.length_cons] at hidx'; omega), hb,
            if_neg fun h => hline ⟨hCR, congrArg some h⟩]
          exact hnext l' hc rfl
      · rw [if_neg hCR, if_neg hLF]
        exact hnext l' hc rfl

theorem parseLineLoop_stop (h : contents c.readBuf c.checkedIdx s.length = s)
    (hidx : c.checkedIdx + s.length = c.readIdx)
    (hprev : s.head? = some LF → ¬ (1 < c.checkedIdx ∧ c.readBuf (c.checkedIdx - 1) = CR))
    (hcut : cutLine s = .stop u r) : (parseLineLoop s.length c).1 ≠ .ok ∧
      (parseLineLoop s.length c).2 = c.moveTo (c.checkedIdx + u.length) := by
  induction s generalizing c u with
  | nil =>
    cases hcut
    exact ⟨LineStatus.noConfusion, rfl⟩
  | cons a s ih =>
    obtain ⟨ha, hs⟩ := contents_cons h
    have hidx' : c.checkedIdx + (s.length + 1) = c.readIdx := hidx
    have hnext : ∀ u', cutLine s = .stop u' r → u = a :: u' → ¬ (a = CR ∧ s.head? = some LF) →
        (parseLineLoop s.length { c with checkedIdx := c.checkedIdx + 1 }).1 ≠ .ok ∧
          (parseLineLoop s.length { c with checkedIdx := c.checkedIdx + 1 }).2 =
            c.moveTo (c.checkedIdx + u.length) := by
      rintro u' hc rfl hline
      have hrest := @ih (c.moveTo (c.checkedIdx + 1)) u' hs
        (by rw [moveTo_checkedIdx, moveTo_readIdx]; omega) (fun hhead hx => hline ⟨?_, hhead⟩) hc
      · rw [moveTo_moveTo, moveTo_checkedIdx] at hrest
        rw [List.length_cons, Nat.add_comm u'.length, ← Nat.add_assoc]
        exact hrest
      · rw [← ha]
        exact hx.2
    rw [cutLine] at hcut
    rw [List.length_cons, parseLineLoop]
    dsimp only
    rw [ha]
    split_ifs at hcut with hLF hline hend
    · cases hcut
      rw [if_neg (by rw [hLF]; decide), if_pos hLF, if_neg (hprev (congrArg some hLF))]
      exact ⟨LineStatus.noConfusion, rfl⟩
    · cases hcut
      obtain ⟨rfl, rfl⟩ := hend
      rw [if_pos rfl, if_pos (show c.checkedIdx + 1 = c.readIdx from hidx')]
      exact ⟨LineStatus.noConfusion, rfl⟩
    · obtain ⟨u', rfl, hc⟩ := Cut.cons_eq_stop hcut
      by_cases hCR : a = CR
      · cases s with
        | nil => exact absurd ⟨hCR, rfl⟩ hend
        | cons b s =>
          have hb := (contents_cons hs).1
          rw [if_pos hCR, if_neg (by rw [List.length_cons] at hidx'; omega), hb,
            if_neg fun h => hline ⟨hCR, congrArg some h⟩]
          exact hnext u' hc rfl hline
      · rw [if_neg hCR, if_neg hLF]
        exact hnext u' hc rfl hline

/-! ## 2. Calls in `CHECK_STATE_REQUESTLINE` -/

/-- The line `l` starts at `m_start_line` and has been taken. -/
structure HasLine (l : List UInt8) (c : HttpConn) : Prop where
  text : contents c.readBuf c.startLine l.length = l
  nul : c.readBuf (c.startLine + l.length) = NUL
  lt : c.startLine + l.length < c.checkedIdx

theorem HasLine.congr (h : HasLine l c) (hstart : c'.startLine = c.startLine)
    (hle : c.checkedIdx ≤ c'.checkedIdx) (hb : ∀ i < c.checkedIdx, c'.readBuf i = c.readBuf i) :
    HasLine l c' := by
  have hlt := h.lt
  refine ⟨?_, ?_, ?_⟩
  · rw [hstart]
    exact (contents_congr fun i _ hi => hb i (by omega)).trans h.text
  · rw [hstart, hb _ hlt]
    exact h.nul
  · rw [hstart]
    exact hlt.trans_le hle

/-- The bytes `s` are not scanned yet, and `first` is the first line since `m_start_line`. -/
structure Scanning (first : Option (List UInt8)) (s : List UInt8) (c : HttpConn) : Prop where
  resumed : Resumed c
  checkState : c.checkState = .requestLine
  read_le : c.readIdx ≤ READ_BUFFER_SIZE
  readIdx : c.checkedIdx + s.length = c.readIdx
  rest : contents c.readBuf c.checkedIdx s.length = s
  /-- an LF that comes next is a bare one -/
  prev : s.head? ≠ some CR → ¬ (1 < c.checkedIdx ∧ c.readBuf (c.checkedIdx - 1) = CR)
  start : first = none → c.startLine = c.checkedIdx
  line : ∀ l, first = some l → HasLine l c

/-- An LF without a CR has been refused: the scan stays there. -/
structure Refusing (c : HttpConn) : Prop where
  resumed : Resumed c
  checkState : c.checkState = .requestLine
  read_le : c.readIdx ≤ READ_BUFFER_SIZE
  start : c.startLine = c.checkedIdx
  stops : Stops c .bad

theorem Scanning.init (c : HttpConn) : Scanning none [] c.init where
  resumed := Resumed.init c
  checkState := rfl
  read_le := Nat.zero_le _
  readIdx := rfl
  rest := rfl
  prev _ h := absurd h.1 (Nat.not_lt_zero 1)
  start _ := rfl
  line l h := by cases h

theorem receive_below {i : ℕ} (hi : i < c.readIdx) (chunk : List UInt8) :
    (c.receive chunk).readBuf i = c.readBuf i := if_neg fun h => absurd h.1 (by omega)

theorem receive_contents (c : HttpConn) (chunk : List UInt8) :
    contents (c.receive chunk).readBuf c.readIdx chunk.length = chunk := by
  apply List.ext_getElem (contents_length _ _ _)
  intro i h1 h2
  simp only [contents, List.getElem_map, List.getElem_range]
  show (if c.readIdx ≤ c.readIdx + i ∧ c.readIdx + i < c.readIdx + chunk.length then _ else _) = _
  rw [if_pos (by omega), Nat.add_sub_cancel_left, List.getD_eq_getElem _ _ h2]

theorem Scanning.receive (h : Scanning first s c) (hfit : c.readIdx + chunk.length ≤ READ_BUFFER_SIZE) :
    Scanning first (s ++ chunk) (c.receive chunk) := by
  have hidx := h.readIdx
  have hle := h.resumed.clear.checked_le
  refine ⟨⟨h.resumed.clear.receive chunk, h.resumed.contentLength⟩, h.checkState, hfit, ?_, ?_, ?_,
    h.start, ?_⟩
  · show c.checkedIdx + (s ++ chunk).length = c.readIdx + chunk.length
    rw [List.length_append]
    omega
  · show contents _ c.checkedIdx (s ++ chunk).length = s ++ chunk
    rw [List.length_append, contents_add, hidx, receive_contents]
    congr 1
    exact (contents_congr fun i _ hi => receive_below (by omega) chunk).trans h.rest
  · rintro hhead ⟨h1, hCR⟩
    have hCR' : (c.receive chunk).readBuf (c.checkedIdx - 1) = CR := hCR
    have h1' : 1 < c.checkedIdx := h1
    rw [receive_below (by omega)] at hCR'
    refine h.prev (fun hs => hhead ?_) ⟨h1', hCR'⟩
    rw [List.head?_append, hs]
    rfl
  · exact fun l hl => (h.line l hl).congr rfl le_rfl fun i hi => receive_below (by omega) chunk

theorem Refusing.receive (h : Refusing c) (hfit : c.readIdx + chunk.length ≤ READ_BUFFER_SIZE) :
    Refusing (c.receive chunk) := by
  refine ⟨⟨h.resumed.clear.receive chunk, h.resumed.contentLength⟩, h.checkState, hfit, h.start, ?_⟩
  cases h.stops with
  | bareLF hlt hLF hno =>
    refine .bareLF (hlt.trans_le (Nat.le_add_right _ _)) ((receive_below hlt chunk).trans hLF) ?_
    rintro ⟨h1, hCR⟩
    have hCR' : (c.receive chunk).readBuf (c.checkedIdx - 1) = CR := hCR
    rw [receive_below (by omega)] at hCR'
    exact hno ⟨h1, hCR'⟩

/-- A line is taken. -/
theorem Scanning.found (h : Scanning first s c) (hcut : cutLine s = .found l r) :
    c.parseLine.1 = .ok ∧ Scanning (some (first.getD l)) r c.parseLine.2 := by
  have hloop := parseLineLoop_found h.rest h.readIdx hcut
  obtain ⟨rfl, -⟩ := cutLine_found hcut
  have hidx := h.readIdx
  simp only [List.length_append] at hidx
  have hline : c.parseLine = (.ok, c.takeLine (c.checkedIdx + l.length)) := by
    rw [parseLine, ← h.readIdx, Nat.add_sub_cancel_left]
    exact hloop
  have hCRLF : CRLF.length = 2 := rfl
  have hres : Resumed c.parseLine.2 := by
    refine ⟨h.resumed.clear.parseLine, fun _ => ?_⟩
    rw [parseLine_contentLength]
    exact h.resumed.contentLength h.checkState
  rw [hline] at hres ⊢
  have hsame {i : ℕ} (h0 : i ≠ c.checkedIdx + l.length) (h1 : i ≠ c.checkedIdx + l.length + 1) :
      (c.takeLine (c.checkedIdx + l.length)).readBuf i = c.readBuf i := by
    rw [takeLine_readBuf, Function.update_of_ne h1, Function.update_of_ne h0]
  have hsplit := h.rest
  simp only [List.length_append, contents_add, hCRLF] at hsplit
  obtain ⟨hleft, hright⟩ := List.append_inj hsplit (by simp [hCRLF])
  obtain ⟨hl, -⟩ := List.append_inj hleft (by simp)
  refine ⟨rfl, hres, h.checkState, h.read_le, ?_, ?_, ?_, nofun, ?_⟩
  · show c.checkedIdx + l.length + 2 + r.length = c.readIdx
    omega
  · refine (contents_congr fun i hi _ => hsame ?_ ?_).trans hright
    · have : c.checkedIdx + l.length + 2 ≤ i := hi
      omega
    · have : c.checkedIdx + l.length + 2 ≤ i := hi
      omega
  · rintro - ⟨-, hCR⟩
    have hnul : (c.takeLine (c.checkedIdx + l.length)).readBuf (c.checkedIdx + l.length + 1) = NUL :=
      Function.update_self _ _ _
    exact absurd (hnul.symm.trans hCR) (by decide)
  · rintro _ ⟨rfl⟩
    cases first with
    | none =>
      have hstart := h.start rfl
      refine ⟨?_, ?_, ?_⟩
      · show contents _ c.startLine l.length = l
        rw [hstart]
        exact (contents_congr fun i hi hlt => hsame (by omega) (by omega)).trans hl
      · show (c.takeLine _).readBuf (c.startLine + l.length) = NUL
        rw [hstart, takeLine_readBuf, Function.update_of_ne (by omega), Function.update_self]
      · show c.startLine + l.length < c.checkedIdx + l.length + 2
        omega
    | some t =>
      refine (h.line t rfl).congr rfl ?_ fun i hi => hsame (by omega) (by omega)
      show c.checkedIdx ≤ c.checkedIdx + l.length + 2
      omega

/-- The string that a NUL behind a text ends. -/
theorem cstring_of_contents {buf : Buf} {p n : ℕ} (h : contents buf p s.length = s)
    (hnul : buf (p + s.length) = NUL) (hn : s.length ≤ n) : cstring n buf p = upToNul s := by
  obtain ⟨k, rfl⟩ := Nat.exists_eq_add_of_le hn
  rw [cstring, contents_add, h, upToNul, List.takeWhile_append]
  split_ifs with hall
  · have hrest : cstring k buf (p + s.length) = [] := cstring_nil hnul
    rw [cstring] at hrest
    rw [hrest, List.append_nil]
    exact ((List.takeWhile_prefix _).eq_of_length hall).symm
  · rfl

theorem GetLine_head_ne_LF (g : GetLine) : g.line.head? ≠ some LF := by
  have hhead := g.method_get.head
  intro hLF
  cases hm : g.method with
  | nil =>
    rw [hm] at hhead
    cases hhead
  | cons b m =>
    rw [hm] at hhead
    simp only [GetLine.line, hm, List.cons_append, List.head?_cons, Option.some.injEq] at hLF
    rw [hLF] at hhead
    exact absurd (show some (toLower LF) = some (toLower 71) from hhead) (by decide)

/-- `parse_request_line` accepts what stands up to the NUL. -/
theorem pendingLine_iff {n : ℕ} (hread : c.readIdx ≤ READ_BUFFER_SIZE) (hclear : Clear c)
    (hmove : c.parseLine.2 = c.moveTo n) : c.pendingLine.1 ≠ .badRequest ↔
      ∃ g : GetLine, g.line = cstring READ_BUFFER_SIZE c.readBuf c.startLine := by
  have hnul : ∃ i ≤ READ_BUFFER_SIZE, c.parseLine.2.nextLine.readBuf (c.startLine + i) = NUL := by
    refine ⟨c.readIdx, hread, ?_⟩
    rw [hmove]
    exact hclear.nul _ (Nat.le_add_left _ _)
  have hiff := accepted_iff_getLine hnul
  have hbuf : c.parseLine.2.nextLine.readBuf = c.readBuf := by
    rw [hmove]
    rfl
  rw [hbuf] at hiff
  rw [← hiff]
  constructor
  · intro hne
    by_contra hno
    exact hne (parseRequestLine_refuses hno).1
  · intro hno hbad
    exact absurd (hno.symm.trans hbad) (by decide)

/-- No line is left. -/
theorem Scanning.stop (h : Scanning first s c) (hcut : cutLine s = .stop u r) :
    c.parseLine.1 ≠ .ok ∧ c.parseLine.2 = c.moveTo (c.checkedIdx + u.length) ∧
      (c.RunsOut ↔ r = []) ∧
      (c.pendingLine.1 ≠ .badRequest ↔ ∃ g : GetLine, g.line = upToNul (first.getD s)) := by
  obtain ⟨hne, hmove⟩ : c.parseLine.1 ≠ .ok ∧ c.parseLine.2 = c.moveTo (c.checkedIdx + u.length) := by
    rw [parseLine, ← h.readIdx, Nat.add_sub_cancel_left]
    refine parseLineLoop_stop h.rest h.readIdx (fun hLF => h.prev ?_) hcut
    rw [hLF]
    decide
  have hidx := h.readIdx
  have hle := h.read_le
  refine ⟨hne, hmove, ?_, ?_⟩
  · unfold RunsOut
    rw [hmove, moveTo_checkedIdx, ← hidx, (cutLine_stop hcut).1, List.length_append]
    rw [and_iff_right hne, ← List.length_eq_zero_iff]
    omega
  · rw [pendingLine_iff hle h.resumed.clear hmove]
    have htext : cstring READ_BUFFER_SIZE c.readBuf c.startLine = upToNul (first.getD s) := by
      cases hf : first with
      | none =>
        rw [h.start hf]
        refine cstring_of_contents h.rest (h.resumed.clear.nul _ ?_) ?_
        · exact hidx.ge
        · show s.length ≤ _
          omega
      | some l =>
        obtain ⟨hl, hnul, hlt⟩ := h.line l hf
        have hchecked := h.resumed.clear.checked_le
        refine cstring_of_contents hl hnul ?_
        show l.length ≤ _
        omega
    rw [htext]

theorem pendingLine_startLine (c : HttpConn) : c.pendingLine.2.startLine = c.pendingLine.2.checkedIdx := by
  simp [pendingLine, HttpConn.nextLine]

theorem pendingLine_readIdx (c : HttpConn) : c.pendingLine.2.readIdx = c.readIdx := by
  simp [pendingLine, HttpConn.nextLine]

theorem getLast_contents {buf : Buf} {p : ℕ} (h : contents buf p s.length = s) (hne : s ≠ []) :
    s.getLast? = some (buf (p + s.length - 1)) := by
  obtain ⟨n, hn⟩ := Nat.exists_eq_add_one_of_ne_zero (List.length_pos_iff.2 hne).ne'
  rw [hn, contents_add] at h
  rw [show p + s.length - 1 = p + n by omega, ← h]
  exact List.getLast?_concat

/-- What a refused text leaves of `c`: `u` has been scanned, and `r` not. -/
structure Rejected (u r : List UInt8) (c d : HttpConn) : Prop where
  resumed : Resumed d
  checkState : d.checkState = .requestLine
  read_le : d.readIdx ≤ READ_BUFFER_SIZE
  start : d.startLine = d.checkedIdx
  checkedIdx : d.checkedIdx = c.checkedIdx + u.length
  readIdx : d.checkedIdx + r.length = d.readIdx
  blanked : Blanked c.readBuf d.readBuf
  scanned : contents c.readBuf c.checkedIdx u.length = u
  rest : contents c.readBuf (c.checkedIdx + u.length) r.length = r

theorem Scanning.rejected (h : Scanning first s c) (hcut : cutLine s = .stop u r)
    (hbad : c.pendingLine.1 = .badRequest) : Rejected u r c c.pendingLine.2 := by
  obtain ⟨hne, hmove, -, -⟩ := h.stop hcut
  obtain ⟨rfl, -, -⟩ := cutLine_stop hcut
  have hret : Returns c (.code .badRequest) c.pendingLine.2 :=
    (returns_rejected h.checkState hne hbad).2 rfl
  have hchecked : c.pendingLine.2.checkedIdx = c.checkedIdx + u.length := by
    simp [pendingLine, HttpConn.nextLine, hmove]
  have hidx := h.readIdx
  have hsplit := h.rest
  rw [List.length_append] at hidx
  rw [List.length_append, contents_add] at hsplit
  obtain ⟨hu, hrest⟩ := List.append_inj hsplit (contents_length _ _ _)
  refine ⟨h.resumed.returns hret, ?_, (pendingLine_readIdx c).trans_le h.read_le,
    pendingLine_startLine c, hchecked, ?_, ?_, hu, hrest⟩
  · exact (parseRequestLine_rejects hbad).trans ((parseLine_checkState c).trans h.checkState)
  · rw [hchecked, pendingLine_readIdx]
    omega
  · have hb := parseRequestLine_blanked c.parseLine.2.nextLine c.startLine
    rwa [show c.parseLine.2.nextLine.readBuf = c.readBuf by rw [hmove]; rfl] at hb

/-- The text is refused, and the scan goes on behind it. -/
theorem Scanning.goes_on (h : Scanning first s c) (hcut : cutLine s = .stop u r)
    (hbad : c.pendingLine.1 = .badRequest) (hLF : r.head? ≠ some LF) :
    Scanning none r c.pendingLine.2 := by
  have hd := h.rejected hcut hbad
  obtain ⟨-, -, hr⟩ := cutLine_stop hcut
  refine ⟨hd.resumed, hd.checkState, hd.read_le, hd.readIdx, ?_, ?_, fun _ => hd.start,
    fun _ hl => by cases hl⟩
  · rw [hd.checkedIdx]
    rcases hr with ⟨rfl, -⟩ | rfl | hr
    · rfl
    · have hCR := (contents_cons hd.rest).1
      show [c.pendingLine.2.readBuf _] = [CR]
      rcases hd.blanked (c.checkedIdx + u.length) with he | ⟨he, -⟩
      · rw [Nat.add_zero, he, hCR]
      · exact absurd (hCR ▸ he) (by decide)
    · exact absurd hr hLF
  · rintro hCR ⟨h1, hprev⟩
    rw [hd.checkedIdx] at h1 hprev
    have hbefore : c.readBuf (c.checkedIdx + u.length - 1) = CR := by
      rcases hd.blanked (c.checkedIdx + u.length - 1) with he | ⟨-, he⟩
      · rw [← he, hprev]
      · exact absurd (he.symm.trans hprev) (by decide)
    rcases hr with ⟨rfl, hlast⟩ | rfl | hr
    · obtain ⟨hs, -, -⟩ := cutLine_stop hcut
      rw [List.append_nil] at hs
      cases hu : u with
      | nil =>
        rw [hu] at hs h1 hbefore
        exact h.prev (hs ▸ (Option.some_ne_none CR).symm) ⟨h1, hbefore⟩
      | cons b u' =>
        rw [hs, getLast_contents hd.scanned (by rw [hu]; exact List.cons_ne_nil b u'),
          hbefore] at hlast
        exact hlast rfl
    · exact hCR rfl
    · exact hLF hr

/-- The text is refused, and the scan stays at a bare LF. -/
theorem Scanning.stays (h : Scanning first s c) (hcut : cutLine s = .stop u r)
    (hbad : c.pendingLine.1 = .badRequest) (hLF : r.head? = some LF) :
    Refusing c.pendingLine.2 := by
  have hd := h.rejected hcut hbad
  obtain ⟨hne, hmove, -, -⟩ := h.stop hcut
  obtain ⟨r', rfl⟩ : ∃ r', r = LF :: r' := List.head?_eq_some_iff.1 hLF
  have hat := (contents_cons hd.rest).1
  obtain ⟨hstops, -⟩ := parseLine_stops h.resumed.clear.checked_le hne
  have hbad' : c.parseLine.1 = .bad := by
    rw [hmove] at hstops
    generalize c.parseLine.1 = st at hstops
    cases hstops with
    | atEnd hend =>
      have hidx := hd.readIdx
      rw [List.length_cons, hd.checkedIdx, pendingLine_readIdx] at hidx
      rw [moveTo_checkedIdx, moveTo_readIdx] at hend
      omega
    | trailingCR _ hCR => exact absurd (hat.symm.trans hCR) (by decide)
    | bareLF => rfl
  refine ⟨hd.resumed, hd.checkState, hd.read_le, hd.start, ?_⟩
  rw [hbad'] at hstops
  exact hstops.nextLine.blanked (by simp [pendingLine]) (by simp [pendingLine])
    (parseRequestLine_blanked _ _)

/-- A call at a bare LF refuses what it is given. -/
theorem Refusing.call (h : Refusing c) (hr : Returns c o c') : o = .code .badRequest ∧ Refusing c' := by
  have hl : c.parseLine = (.bad, c) := parseLine_of_stops h.stops
  have hne : c.parseLine.1 ≠ .ok := by
    rw [hl]
    nofun
  have hmove : c.parseLine.2 = c.moveTo c.checkedIdx := by rw [hl]; rfl
  have hbad : c.pendingLine.1 = .badRequest := by
    by_contra hacc
    obtain ⟨g, hg⟩ := (pendingLine_iff h.read_le h.resumed.clear hmove).1 hacc
    cases h.stops with
    | bareLF _ hLF _ =>
      have hhead := cstring_head (show 0 < READ_BUFFER_SIZE by decide)
        (show c.readBuf c.checkedIdx ≠ NUL by rw [hLF]; decide)
      rw [← h.start, ← hg, h.start, hLF] at hhead
      exact GetLine_head_ne_LF g hhead
  have hpair := (returns_rejected h.checkState hne hbad).1 hr
  cases hpair
  have hst := (parseRequestLine_rejects hbad).trans ((parseLine_checkState c).trans h.checkState)
  refine ⟨rfl, h.resumed.returns hr, hst, ?_, pendingLine_startLine c, ?_⟩
  · rw [pendingLine_readIdx]
    exact h.read_le
  · have hs : Stops c.parseLine.2 .bad := by
      rw [hl]
      exact h.stops
    exact hs.nextLine.blanked (by simp [pendingLine]) (by simp [pendingLine])
      (parseRequestLine_blanked _ _)

/-! ## 3. Whole requests -/

/-- The bytes received are the lines taken, what has been refused behind them and the rest. -/
structure Kept (chunks : List (List UInt8)) (p : Waiting) : Prop where
  bytes : chunks.flatten = joinLines p.lines ++ (p.refused ++ p.rest)
  lines : ∀ l ∈ p.lines, LF ∉ l
  refused : LF ∉ p.refused

theorem read_fits (hlt : c.readIdx < READ_BUFFER_SIZE)
    (hfit : c.readIdx + chunk.length ≤ READ_BUFFER_SIZE) : c.read chunk = (true, c.receive chunk) := by
  unfold read
  rw [if_neg (Nat.not_le.2 hlt)]
  dsimp only
  rw [List.take_of_length_le (by omega), decide_eq_true (by omega)]

theorem read_lt (h : (c.read chunk).1 = true) : c.readIdx < READ_BUFFER_SIZE := by
  by_contra hfull
  unfold read at h
  rw [if_pos (Nat.not_lt.1 hfull)] at h
  cases h

/-- The connection that the calls for the chunks have left. -/
structure Waits (chunks : List (List UInt8)) (p : Waiting) (c : HttpConn) : Prop where
  leaves : Leaves chunks p
  scanning : Scanning p.first p.rest c
  readIdx : c.readIdx = chunks.flatten.length

theorem Waits.receive (h : Waits chunks p c) (hroom : Room chunks chunk) :
    c.read chunk = (true, c.receive chunk) ∧ Scanning p.first (p.rest ++ chunk) (c.receive chunk) ∧
      (c.receive chunk).readIdx = (chunks ++ [chunk]).flatten.length := by
  obtain ⟨hlt, hfit⟩ := hroom
  rw [← h.readIdx] at hlt hfit
  refine ⟨read_fits hlt hfit, h.scanning.receive hfit, ?_⟩
  rw [List.flatten_append, List.flatten_singleton, List.length_append, ← h.readIdx]
  rfl

/-- What a run that is in `CHECK_STATE_REQUESTLINE` has left. -/
def Left (chunks : List (List UInt8)) (c : HttpConn) : Prop :=
  c.checkState ≠ .requestLine ∨ Refusing c ∨ ∃ p, Waits chunks p c

theorem Waits.room (h : Waits chunks p c) (hread : (c.read chunk).1 = true) : Room chunks chunk := by
  have hlt := read_lt hread
  have hfit := (read_eq hread).2
  rw [h.readIdx] at hlt hfit
  exact ⟨hlt, hfit⟩

theorem Left.call (h : Left chunks c) (hc : Call c (chunk, o) c') : Left (chunks ++ [chunk]) c' := by
  obtain ⟨hread, hr⟩ := hc
  dsimp only at hread hr
  have heq := (read_eq hread).1
  rw [heq] at hr
  rcases h with hst | hrefusing | ⟨p, hw⟩
  · exact .inl (hr.past_requestLine hst)
  · exact .inr (.inl ((hrefusing.receive (read_eq hread).2).call hr).2)
  · have hroom := hw.room hread
    obtain ⟨-, hs, hidx⟩ := hw.receive hroom
    cases hcut : cutLine (p.rest ++ chunk) with
    | found l r =>
      obtain ⟨hok, hs'⟩ := hs.found hcut
      cases (returns_line (by rw [hs.checkState]; nofun) hok).1 hr
      exact .inr (.inr ⟨_, .line hw.leaves hroom hcut, hs', (parseLine_readIdx _).trans hidx⟩)
    | stop u r =>
      obtain ⟨hne, -, -, hacc⟩ := hs.stop hcut
      by_cases hbad : (c.receive chunk).pendingLine.1 = .badRequest
      · cases (returns_rejected hs.checkState hne hbad).1 hr
        by_cases hLF : r.head? = some LF
        · exact .inr (.inl (hs.stays hcut hbad hLF))
        · have hno (g : GetLine) : g.line ≠ upToNul (p.text chunk) := fun hg => hacc.2 ⟨g, hg⟩ hbad
          exact .inr (.inr ⟨_, .refused hw.leaves hroom hcut hno hLF, hs.goes_on hcut hbad hLF,
            (pendingLine_readIdx _).trans hidx⟩)
      · left
        rcases returns_requestLine hs.resumed hs.checkState hr with ⟨hl, -⟩ | ⟨-, hb, -⟩ | ⟨-, -, he⟩
        · exact absurd hl hne
        · exact absurd hb hbad
        · cases he
          have hheader : (c.receive chunk).pendingLine.2.checkState = .header :=
            parseRequestLine_accepts hbad
          rw [hheader]
          nofun

end HttpConn

end SocketTest.Http
