import SocketTest.Http.Body
import SocketTest.Http.RequestLine
import SocketTest.Http.Sending

/-!
# The header lines

What `parse_headers` keeps of the lines fed to it: `m_linger`, `m_content_length` and `m_host`, and what
`add_linger` and `write` make of the first. The value of a `Connection` line is not looked at, so that
`close` counts as `keep-alive` does; `header_semantics` says for which lines that makes no difference.
-/

namespace SocketTest.Http

open SocketTest.Lib

/-! ## Lines -/

/-- The value of a line of the header `name`: what stands behind the colon and the blanks there. -/
def headerValue (name line : List UInt8) : Option (List UInt8) :=
  if CaseEq (line.take (name.length + 1)) (name ++ [58]) then
    some ((line.drop (name.length + 1)).dropWhile fun b => b ∈ blanks)
  else none

/-- The name that a line begins with. -/
def fieldName (line : List UInt8) : List UInt8 := (line.takeWhile fun b => b ≠ 58).map toLower

/-- Digits, perhaps with blanks behind them. -/
def readDigits (s : List UInt8) : Option ℕ :=
  if (s.dropWhile isDigit).all fun b => b ∈ blanks then readDecimal (s.takeWhile isDigit) else none

/-- A decimal number, perhaps with a sign in front and blanks behind. -/
def readInt (s : List UInt8) : Option ℤ :=
  match s with
  | [] => none
  | b :: t =>
    if b = 45 then (readDigits t).map fun n : ℕ => -(n : ℤ)
    else if b = 43 then (readDigits t).map fun n : ℕ => (n : ℤ)
    else (readDigits (b :: t)).map fun n : ℕ => (n : ℤ)

/-- The number of a `Content-Length` line. -/
def lineNumber (line : List UInt8) : Option ℤ :=
  (headerValue (bytes "Content-Length") line).bind readInt

/-- The value, if there is one, is a number that fits an `int`. -/
def Numbered (line : List UInt8) : Prop :=
  ∀ v, headerValue (bytes "Content-Length") line = some v →
    ∃ z, readInt v = some z ∧ -2 ^ 31 ≤ z ∧ z < 2 ^ 31

def isConnection (line : List UInt8) : Bool := (headerValue (bytes "Connection") line).isSome

def keepsAlive (line : List UInt8) : Bool :=
  (headerValue (bytes "Connection") line).any fun v => CaseEq v (bytes "keep-alive")

def closes (line : List UInt8) : Bool :=
  (headerValue (bytes "Connection") line).any fun v => CaseEq v (bytes "close")

/-- The client wants the connection to be kept. -/
def asked (lines : List (List UInt8)) : Bool := lines.any keepsAlive && !lines.any closes

/-- What `parse_headers` stores. -/
structure Headers where
  linger : Bool
  contentLength : ℤ
  host : Option (List UInt8)
  deriving DecidableEq, Repr

/-- The last number and the last host of these lines. -/
def Headers.of (linger : Bool) (lines : List (List UInt8)) : Headers where
  linger := linger
  contentLength := (lines.filterMap lineNumber).getLastD 0
  host := (lines.filterMap (headerValue (bytes "Host"))).getLast?

section

variable {name line v : List UInt8} {buf : Buf} {p : ℕ}

/-- The line of a header has its name. -/
theorem fieldName_of_value (hname : 58 ∉ name) (h : headerValue name line = some v) :
    fieldName line = name.map toLower := by
  unfold headerValue at h
  split_ifs at h with hc
  have hline := List.take_append_drop (name.length + 1) line
  generalize line.take (name.length + 1) = u at hc hline
  rw [CaseEq, List.map_append, List.map_singleton] at hc
  obtain ⟨u, w, rfl, hu, hw⟩ := List.map_eq_append_iff.1 hc
  obtain ⟨x, rfl, hx⟩ := List.map_eq_singleton_iff.1 hw
  have hx58 : x = 58 := (toLower_eq_iff (by decide)).1 hx
  have hu58 : ∀ b ∈ u, b ≠ 58 := by
    rintro b hb rfl
    have hmem : toLower 58 ∈ name.map toLower := hu ▸ List.mem_map_of_mem hb
    obtain ⟨a, ha, h58⟩ := List.mem_map.1 hmem
    have ha58 : a = 58 := (toLower_eq_iff (by decide)).1 (h58.trans (by decide : toLower 58 = 58))
    exact hname (ha58 ▸ ha)
  rw [fieldName, ← hline, hx58, List.append_assoc, List.singleton_append,
    List.takeWhile_append_of_pos (by simpa using hu58), List.takeWhile_cons_of_neg (by simp),
    List.append_nil, hu]

theorem strncaseeq_headerValue (name : List UInt8) (h : StringAt buf p line) (hname : NUL ∉ name ++ [58]) :
    strncaseeq buf p (name ++ [58]) = (headerValue name line).isSome := by
  have hiff := strncaseeq_iff h hname
  have hlen : (name ++ [58]).length = name.length + 1 := by simp
  rw [Bool.eq_iff_iff, hiff, headerValue]
  constructor
  · rintro ⟨u, w, rfl, hu⟩
    rw [List.take_left' (hu.length.trans hlen), if_pos hu]
    rfl
  · intro hs
    split_ifs at hs with hc
    · exact ⟨_, _, (List.take_append_drop _ _).symm, hc⟩
    · cases hs

/-- The value is the string behind the blanks. -/
theorem stringAt_headerValue (h : StringAt buf p line) (hn : line.length < READ_BUFFER_SIZE)
    (hv : headerValue name line = some v) :
    StringAt buf (strspn READ_BUFFER_SIZE buf (p + (name.length + 1)) blanks) v ∧
      v.length < READ_BUFFER_SIZE := by
  unfold headerValue at hv
  split_ifs at hv with hc
  have hline := List.take_append_drop (name.length + 1) line
  have hlen : (line.take (name.length + 1)).length = name.length + 1 := by
    simpa using hc.length
  generalize line.take (name.length + 1) = u at hlen hline
  have hrest : StringAt buf (p + (name.length + 1)) (line.drop (name.length + 1)) := by
    have hu : StringAt buf p (u ++ line.drop (name.length + 1)) := hline.symm ▸ h
    exact hlen ▸ hu.append
  have hdrop : (line.drop (name.length + 1)).length ≤ line.length := by
    rw [List.length_drop]
    omega
  obtain ⟨w, rest, hsplit, hw, hhead⟩ := skip_blanks (line.drop (name.length + 1))
  rw [hsplit] at hrest hv hdrop
  have hvalue : rest = v := by
    rw [List.dropWhile_append_of_pos (by simpa using hw)] at hv
    rw [← Option.some.inj hv]
    cases rest with
    | nil => rfl
    | cons b rest => rw [List.dropWhile_cons_of_neg (by simpa using hhead)]
  rw [List.length_append] at hdrop
  rw [hrest.strspn (by omega) hw hhead, ← hvalue]
  exact ⟨hrest.append, by omega⟩

end

/-! ## `atol` -/

theorem digits_eq {buf : Buf} {n p acc : ℕ} {ds rest : List UInt8}
    (h : StringAt buf p (ds ++ rest)) (hn : ds.length < n) (hds : ∀ b ∈ ds, isDigit b = true)
    (hrest : isDigit (rest.headD NUL) = false) :
    digits buf n p acc = ds.foldl (fun n b => n * 10 + (b.toNat - 48)) acc := by
  induction ds generalizing n p acc with
  | nil =>
    cases n with
    | zero => omega
    | succ n =>
      have hp : buf p = rest.headD NUL := h.getD
      rw [digits, hp, hrest]
      rfl
  | cons b ds ih =>
    cases n with
    | zero => omega
    | succ n =>
      have hb : isDigit (buf p) = true := by
        rw [h.1]
        exact hds b List.mem_cons_self
      rw [digits, if_pos hb, ih h.2.2 (by simpa using hn) fun c hc =>
        hds c (List.mem_cons_of_mem _ hc), h.1]
      rfl

theorem readDecimal_eq {s : List UInt8} {n : ℕ} (h : readDecimal s = some n) :
    s ≠ [] ∧ s.foldl (fun n b => n * 10 + (b.toNat - 48)) 0 = n := by
  unfold readDecimal at h
  split_ifs at h with hs
  exact ⟨hs.1, Option.some.inj h⟩

theorem digits_readDigits {buf : Buf} {n p k : ℕ} {s : List UInt8} (h : StringAt buf p s)
    (hn : s.length < n) (hk : readDigits s = some k) :
    digits buf n p 0 = k ∧ isDigit (buf p) = true := by
  unfold readDigits at hk
  split_ifs at hk with hblank
  obtain ⟨hne, hfold⟩ := readDecimal_eq hk
  have hds : ∀ b ∈ s.takeWhile isDigit, isDigit b = true := fun b hb => List.mem_takeWhile_imp hb
  have hsplit : s.takeWhile isDigit ++ s.dropWhile isDigit = s := List.takeWhile_append_dropWhile
  generalize s.takeWhile isDigit = ds at hne hfold hds hsplit
  generalize s.dropWhile isDigit = w at hblank hsplit
  subst hsplit
  have hend : isDigit (w.headD NUL) = false := by
    cases w with
    | nil => decide
    | cons b w =>
      have hb : b = SP ∨ b = TAB := by
        simpa [blanks] using List.all_eq_true.1 hblank b List.mem_cons_self
      rcases hb with rfl | rfl
      · exact (by decide : isDigit SP = false)
      · exact (by decide : isDigit TAB = false)
  rw [List.length_append] at hn
  refine ⟨(digits_eq h (by omega) hds hend).trans hfold, ?_⟩
  obtain ⟨b, ds, rfl⟩ := List.exists_cons_of_ne_nil hne
  rw [h.1]
  exact hds b List.mem_cons_self

theorem isSpace_of_isDigit {b : UInt8} (h : isDigit b = true) :
    isSpace b = false ∧ b ≠ 45 ∧ b ≠ 43 := by
  unfold isDigit at h
  unfold isSpace SP
  simp only [decide_eq_true_eq, decide_eq_false_iff_not, UInt8.le_iff_toNat_le, ne_eq,
    ← UInt8.toNat_inj, UInt8.reduceToNat] at h ⊢
  omega

/-- A number that fits an `int` is read. -/
theorem atol_readInt {buf : Buf} {n p : ℕ} {s : List UInt8} {z : ℤ} (h : StringAt buf p s)
    (hn : s.length < n) (hz : readInt s = some z) (hlo : -2 ^ 31 ≤ z) (hhi : z < 2 ^ 31) :
    atol n buf p = z := by
  obtain ⟨n, rfl⟩ := Nat.exists_eq_succ_of_ne_zero (Nat.ne_zero_of_lt hn)
  cases s with
  | nil => cases hz
  | cons b t =>
    rw [List.length_cons] at hn
    -- the number begins at `p`
    have hspan : isSpace b = false → span isSpace buf (n + 1) p = p := by
      intro hb
      rw [span, h.1, hb]
      rfl
    unfold readInt at hz
    dsimp only at hz
    rw [atol]
    split_ifs at hz with h45 h43
    · obtain ⟨k, hk, rfl⟩ := Option.map_eq_some_iff.1 hz
      have hdigits := (digits_readDigits h.2.2 (n := n + 1) (by omega) hk).1
      rw [hspan (by rw [h45]; decide), h.1, if_pos h45, hdigits]
      omega
    · obtain ⟨k, hk, rfl⟩ := Option.map_eq_some_iff.1 hz
      have hdigits := (digits_readDigits h.2.2 (n := n + 1) (by omega) hk).1
      rw [hspan (by rw [h43]; decide), h.1, if_neg h45, if_pos h43, hdigits]
      omega
    · obtain ⟨k, hk, rfl⟩ := Option.map_eq_some_iff.1 hz
      obtain ⟨hdigits, hb⟩ := digits_readDigits h (n := n + 1) (by rw [List.length_cons]; omega) hk
      rw [h.1] at hb
      rw [hspan (isSpace_of_isDigit hb).1, h.1, if_neg h45, if_neg h43, hdigits]
      omega

/-! ## One line -/

/-- A header line in the buffer. -/
structure HeaderAt (buf : Buf) (p : ℕ) (line : List UInt8) : Prop where
  string : StringAt buf p line
  ne : line ≠ []
  length : line.length < READ_BUFFER_SIZE

theorem HeaderAt.ne_nul {buf : Buf} {p : ℕ} {line : List UInt8} (h : HeaderAt buf p line) :
    buf p ≠ NUL := by
  obtain ⟨b, line, rfl⟩ := List.exists_cons_of_ne_nil h.ne
  rw [h.string.1]
  exact h.string.2.1

/-- A line of one header is none of another one. -/
theorem headerValue_none {name other line v : List UInt8} (hname : 58 ∉ name) (hother : 58 ∉ other)
    (hne : name.map toLower ≠ other.map toLower) (h : headerValue name line = some v) :
    headerValue other line = none := by
  cases hv : headerValue other line with
  | none => rfl
  | some w =>
    exact absurd ((fieldName_of_value hname h).symm.trans (fieldName_of_value hother hv)) hne

namespace HttpConn

variable {c : HttpConn} {p : ℕ} {line v : List UInt8}

/-- What is in the connection after the header lines so far. -/
def headers (c : HttpConn) : Headers where
  linger := c.linger
  contentLength := c.contentLength
  host := c.host.map (cstring READ_BUFFER_SIZE c.readBuf)

/-- The header that a line adds to. -/
inductive Stores (c : HttpConn) (p : ℕ) (line : List UInt8) : HttpConn → Prop
  | connection : isConnection line = true → lineNumber line = none →
      headerValue (bytes "Host") line = none → Stores c p line { c with linger := true }
  | contentLength {z : ℤ} : isConnection line = false → lineNumber line = some z →
      headerValue (bytes "Host") line = none → Stores c p line { c with contentLength := z }
  | host {q : ℕ} {v : List UInt8} : isConnection line = false → lineNumber line = none →
      headerValue (bytes "Host") line = some v → cstring READ_BUFFER_SIZE c.readBuf q = v →
      Stores c p line { c with host := some q }
  | other : isConnection line = false → lineNumber line = none →
      headerValue (bytes "Host") line = none → Stores c p line c

theorem lineNumber_none (h : headerValue (bytes "Content-Length") line = none) :
    lineNumber line = none := by
  rw [lineNumber, h]
  rfl

theorem parseHeaders_stores (h : HeaderAt c.readBuf p line) (hnum : Numbered line) :
    Stores c p line (c.parseHeaders p).2 := by
  have hconn : strncaseeq c.readBuf p (bytes "Connection:") = isConnection line :=
    strncaseeq_headerValue (bytes "Connection") h.string (by decide)
  have hlength : strncaseeq c.readBuf p (bytes "Content-Length:") =
      (headerValue (bytes "Content-Length") line).isSome :=
    strncaseeq_headerValue (bytes "Content-Length") h.string (by decide)
  have hhost : strncaseeq c.readBuf p (bytes "Host:") = (headerValue (bytes "Host") line).isSome :=
    strncaseeq_headerValue (bytes "Host") h.string (by decide)
  rw [parseHeaders, if_neg h.ne_nul, hconn, hlength, hhost]
  by_cases hc : isConnection line = true
  · obtain ⟨v, hv⟩ := Option.isSome_iff_exists.1 hc
    rw [if_pos hc]
    exact .connection hc
      (lineNumber_none (headerValue_none (by decide) (by decide) (by decide) hv))
      (headerValue_none (by decide) (by decide) (by decide) hv)
  have hc' : isConnection line = false := by simpa using hc
  rw [if_neg hc]
  cases hl : headerValue (bytes "Content-Length") line with
  | some v =>
    obtain ⟨z, hz, hlo, hhi⟩ := hnum v hl
    obtain ⟨hstr, hlen⟩ := stringAt_headerValue h.string h.length hl
    have hatol := atol_readInt hstr hlen hz hlo hhi
    rw [if_pos Option.isSome_some]
    show Stores c p line { c with contentLength := toInt32 (atol READ_BUFFER_SIZE c.readBuf
      (strspn READ_BUFFER_SIZE c.readBuf (p + 15) blanks)) }
    rw [show p + 15 = p + ((bytes "Content-Length").length + 1) from rfl, hatol,
      toInt32_eq_self.2 ⟨hlo, hhi⟩]
    refine .contentLength hc' ?_ (headerValue_none (by decide) (by decide) (by decide) hl)
    rw [lineNumber, hl]
    exact hz
  | none =>
    rw [if_neg (by simp)]
    cases hh : headerValue (bytes "Host") line with
    | some v =>
      obtain ⟨hstr, hlen⟩ := stringAt_headerValue h.string h.length hh
      rw [if_pos Option.isSome_some]
      exact .host hc' (lineNumber_none hl) hh (hstr.cstring hlen.le)
    | none =>
      rw [if_neg (by simp)]
      exact .other hc' (lineNumber_none hl) hh

/-! ## All lines -/

/-- Header lines, with the places where they stand in the buffer. -/
abbrev Lines := List (ℕ × List UInt8)

def Lines.texts (ls : Lines) : List (List UInt8) := ls.map Prod.snd

def Lines.Placed (buf : Buf) (ls : Lines) : Prop := ∀ l ∈ ls, HeaderAt buf l.1 l.2

/-- The connection behind `init` and the request line, with this text in `m_read_buf`. -/
def atHeaders (c : HttpConn) (buf : Buf) : HttpConn :=
  { c.init with readBuf := buf, checkState := .header }

/-- The lines are given to `parse_headers` one by one. -/
def feed (c : HttpConn) (ls : Lines) : HttpConn :=
  ls.foldl (fun c l => (c.parseHeaders l.1).2) c

theorem feed_concat (c : HttpConn) (ls : Lines) (l : ℕ × List UInt8) :
    c.feed (ls ++ [l]) = ((c.feed ls).parseHeaders l.1).2 := by
  simp [feed]

theorem feed_readBuf (c : HttpConn) (ls : Lines) : (c.feed ls).readBuf = c.readBuf := by
  induction ls using List.reverseRecOn with
  | nil => rfl
  | append_singleton ls l ih =>
    obtain ⟨st, n, k, h, he, -⟩ := parseHeaders_frame (c.feed ls) l.1
    rw [feed_concat, he]
    exact ih

/-- After the lines, `m_linger` says whether there was a `Connection` line; length and host are the last
ones. -/
theorem headers_feed (c₀ : HttpConn) {buf : Buf} {ls : Lines} (hls : ls.Placed buf)
    (hnum : ∀ l ∈ ls.texts, Numbered l) :
    ((c₀.atHeaders buf).feed ls).headers = Headers.of (ls.texts.any isConnection) ls.texts := by
  induction ls using List.reverseRecOn with
  | nil => rfl
  | append_singleton ls l ih =>
    have hinit := ih (fun x hx => hls x (List.mem_append_left _ hx)) fun x hx =>
      hnum x (by rw [Lines.texts, List.map_append]; exact List.mem_append_left _ hx)
    have hbuf := feed_readBuf (c₀.atHeaders buf) ls
    have htexts : Lines.texts (ls ++ [l]) = Lines.texts ls ++ [l.2] := List.map_append
    have hl : HeaderAt ((c₀.atHeaders buf).feed ls).readBuf l.1 l.2 := by
      rw [hbuf]
      exact hls l (List.mem_append_right _ List.mem_cons_self)
    have hst := parseHeaders_stores hl (hnum l.2 (by rw [htexts]; simp))
    rw [feed_concat, htexts]
    generalize (c₀.atHeaders buf).feed ls = d at hinit hst
    generalize (d.parseHeaders l.1).2 = e at hst ⊢
    obtain ⟨h1, h2, h3⟩ := Headers.mk.injEq .. ▸ hinit
    cases hst with
    | connection hc hn hh =>
      simp [Headers.of, headers, hc, hn, hh, h2, h3]
    | @contentLength z hc hn hh =>
      simp [Headers.of, headers, hc, hn, hh, h1, h3]
    | @host q v hc hn hh hq =>
      simp [Headers.of, headers, hc, hn, hh, h1, h2, hq]
    | other hc hn hh =>
      simp [Headers.of, headers, hc, hn, hh, h1, h2, h3]

/-! ## The order of the lines -/

/-- Of lines with different names at most one has a value under a name. -/
theorem filterMap_perm {β : Type} {f : List UInt8 → Option β} {lines lines' : List (List UInt8)}
    (name : List UInt8) (hf : ∀ l v, f l = some v → fieldName l = name)
    (hperm : lines'.Perm lines) (hnodup : (lines.map fieldName).Nodup) :
    lines'.filterMap f = lines.filterMap f := by
  have hone : lines.filterMap f = [] ∨ ∃ v, lines.filterMap f = [v] := by
    clear hperm
    induction lines with
    | nil => exact .inl rfl
    | cons l lines ih =>
      obtain ⟨hl, hrest⟩ := List.nodup_cons.1 hnodup
      cases hv : f l with
      | none =>
        rw [List.filterMap_cons_none hv]
        exact ih hrest
      | some v =>
        have hnil : lines.filterMap f = [] := by
          rw [List.filterMap_eq_nil_iff]
          intro l' hl'
          by_contra hne
          obtain ⟨w, hw⟩ := Option.ne_none_iff_exists'.1 hne
          exact hl (List.mem_map.2 ⟨l', hl', (hf l' w hw).trans (hf l v hv).symm⟩)
        rw [List.filterMap_cons_some hv, hnil]
        exact .inr ⟨v, rfl⟩
  have hp := hperm.filterMap f
  rcases hone with h | ⟨v, h⟩
  · rw [h] at hp ⊢
    exact hp.eq_nil
  · rw [h] at hp ⊢
    exact hp.eq_singleton

theorem headers_of_perm {lines lines' : List (List UInt8)} (linger : Bool)
    (hperm : lines'.Perm lines) (hnodup : (lines.map fieldName).Nodup) :
    Headers.of linger lines' = Headers.of linger lines := by
  have hnumber : lines'.filterMap lineNumber = lines.filterMap lineNumber := by
    refine filterMap_perm ((bytes "Content-Length").map toLower) ?_ hperm hnodup
    intro l z hz
    obtain ⟨v, hv, -⟩ := Option.bind_eq_some_iff.1 hz
    exact fieldName_of_value (by decide) hv
  have hhost : lines'.filterMap (headerValue (bytes "Host")) =
      lines.filterMap (headerValue (bytes "Host")) :=
    filterMap_perm _ (fun l v hv => fieldName_of_value (by decide) hv) hperm hnodup
  rw [Headers.of, Headers.of, hnumber, hhost]

/-! ## Where `m_linger` is used -/

@[simp] theorem addResponse_linger (c : HttpConn) (text : List UInt8) :
    (c.addResponse text).2.linger = c.linger := by
  unfold addResponse
  dsimp only
  split_ifs <;> rfl

@[simp] theorem addHeaders_linger (c : HttpConn) (n : ℤ) : (c.addHeaders n).linger = c.linger := by
  simp [addHeaders, addContentLength, addLinger, addBlankLine]

@[simp] theorem writeError_linger (c : HttpConn) (status : ℕ) (title form : List UInt8) :
    (c.writeError status title form).2.linger = c.linger := by
  unfold writeError
  dsimp only
  split_ifs <;> simp [addContent, addStatusLine]

@[simp] theorem processWrite_linger (c : HttpConn) (code : HttpCode) :
    (c.processWrite code).2.linger = c.linger := by
  cases code with
  | fileRequest =>
    unfold processWrite
    dsimp only
    split_ifs <;> simp [addContent, addStatusLine]
  | internalError | badRequest | noResource | forbiddenRequest => exact writeError_linger _ _ _ _
  | noRequest | getRequest | closedConnection => rfl

/-- The response and the end of `write`, with the answer to whether the client wants the connection to
be kept. -/
structure Follows (e : HttpConn) (keep : Bool) : Prop where
  errorPage : ∀ code ∈ errorCodes, (e.processWrite code).2.response = errorResponse keep code
  fileHeader : e.fileSize ≠ 0 →
    (e.processWrite .fileRequest).2.response = fileHeader keep e.fileSize
  write : ∀ code (toSend haveSend : ℤ) (n : ℕ), toSend - n ≤ haveSend + n →
    ((e.processWrite code).2.writeRound toSend haveSend (.sent n)).1 = .finished keep

theorem follows_linger {e : HttpConn} (h0 : e.writeIdx = 0) : Follows e e.linger := by
  constructor
  · exact fun code hcode => (processWrite_error h0 hcode).2.1
  · intro hsize
    obtain ⟨d, hd, he⟩ := processWrite_file hsize
      (by rw [h0, Nat.zero_add]; exact fileHeader_length e.linger e.fileSize)
    have hempty : e.response = [] := by rw [response, h0]; rfl
    rw [he]
    exact hd.response.trans (by rw [hempty, List.nil_append])
  · intro code toSend haveSend n hle
    rw [writeRound_finished _ hle, processWrite_linger]

/-! ## What the client has asked for -/

/-- What the lines mean is stored, whatever their order, and the response and `write` follow it. -/
structure HeaderSemantics (c₀ : HttpConn) (buf : Buf) (ls : Lines) : Prop where
  stored : ((c₀.atHeaders buf).feed ls).headers = Headers.of (asked ls.texts) ls.texts
  other : ∀ (d : HttpConn) (p : ℕ) (line : List UInt8), HeaderAt d.readBuf p line →
    headerValue (bytes "Connection") line = none → headerValue (bytes "Content-Length") line = none →
    headerValue (bytes "Host") line = none → (d.parseHeaders p).2 = d
  order : ∀ (buf' : Buf) (ls' : Lines), ls'.Placed buf' → ls'.texts.Perm ls.texts →
    (ls.texts.map fieldName).Nodup →
    ((c₀.atHeaders buf').feed ls').headers = ((c₀.atHeaders buf).feed ls).headers
  /-- `do_request` leaves `m_linger` and the empty response as they are -/
  follows : ∀ e : HttpConn, e.linger = ((c₀.atHeaders buf).feed ls).linger → e.writeIdx = 0 →
    Follows e (asked ls.texts)

theorem isConnection_of_keepsAlive {line : List UInt8} (h : keepsAlive line = true) :
    isConnection line = true := by
  obtain ⟨v, hv, -⟩ := (Option.any_eq_true _ _).1 h
  rw [isConnection, hv]
  rfl

/-- **Header semantics.** What is stored is what the client has asked for exactly when there is no
`Connection` line, or one with `keep-alive` and none with `close`. -/
theorem header_semantics (c₀ : HttpConn) {buf : Buf} {ls : Lines} (hls : ls.Placed buf)
    (hnum : ∀ l ∈ ls.texts, Numbered l) : HeaderSemantics c₀ buf ls ↔
      ((∃ l ∈ ls.texts, isConnection l = true) → asked ls.texts = true) := by
  have hfeed := headers_feed c₀ hls hnum
  constructor
  · rintro h ⟨l, hl, hconn⟩
    have hstored := congrArg Headers.linger (hfeed.symm.trans h.stored)
    have hany : ls.texts.any isConnection = true := List.any_eq_true.2 ⟨l, hl, hconn⟩
    exact hstored.symm.trans hany
  · intro hcond
    have hasked : ls.texts.any isConnection = asked ls.texts := by
      by_cases hc : ∃ l ∈ ls.texts, isConnection l = true
      · rw [hcond hc, List.any_eq_true.2 hc]
      · have hnone : ls.texts.any keepsAlive = false := by
          rw [Bool.eq_false_iff]
          intro hk
          obtain ⟨l, hl, hkeep⟩ := List.any_eq_true.1 hk
          exact hc ⟨l, hl, isConnection_of_keepsAlive hkeep⟩
        rw [asked, hnone, Bool.false_and, Bool.eq_false_iff]
        exact fun hany => hc (List.any_eq_true.1 hany)
    constructor
    · rw [hfeed, hasked]
    · intro d p line hline h1 h2 h3
      have hst := parseHeaders_stores hline fun v hv => by rw [h2] at hv; cases hv
      generalize (d.parseHeaders p).2 = e at hst ⊢
      cases hst with
      | connection hc => rw [isConnection, h1] at hc; cases hc
      | contentLength _ hn => rw [lineNumber_none h2] at hn; cases hn
      | host _ _ hh => rw [h3] at hh; cases hh
      | other => rfl
    · intro buf' ls' hls' hperm hnodup
      rw [hfeed, headers_feed c₀ hls' fun l hl => hnum l (hperm.subset hl), headers_of_perm _ hperm hnodup,
        hperm.any_eq]
    · intro e hlinger h0
      have hkeep : e.linger = asked ls.texts :=
        hlinger.trans ((congrArg Headers.linger hfeed).trans hasked)
      rw [← hkeep]
      exact follows_linger h0

/-- Two lines, the second with its letters in mixed case. -/
def keepLines : Lines := [(0, bytes "Host: a"), (8, bytes "connection: Keep-Alive")]

/-- `Connection: close`. -/
def closeLines : Lines := [(0, bytes "Connection: close")]

/-- The lines with a NUL behind each. -/
def Lines.buf (ls : Lines) : Buf := bufOf (ls.texts.flatMap fun l => l ++ [NUL])

instance decidablePlaced (buf : Buf) (ls : Lines) : Decidable (ls.Placed buf) :=
  decidable_of_iff (∀ l ∈ ls, StringAt buf l.1 l.2 ∧ l.2 ≠ [] ∧ l.2.length < READ_BUFFER_SIZE)
    (forall₂_congr fun _ _ => ⟨fun h => ⟨h.1, h.2.1, h.2.2⟩, fun h => ⟨h.1, h.2, h.3⟩⟩)

theorem header_semantics_keep : HeaderSemantics unused keepLines.buf keepLines :=
  (header_semantics unused (by decide +kernel) (by
    intro l hl v hv
    have hnone : ∀ l ∈ keepLines.texts, headerValue (bytes "Content-Length") l = none := by
      decide +kernel
    rw [hnone l hl] at hv
    cases hv)).2 fun _ => by decide +kernel

/-- `Connection: close` is taken for `keep-alive`. -/
theorem close_ignored : ¬ ∀ (c₀ : HttpConn) (buf : Buf) (ls : Lines), ls.Placed buf →
    (∀ l ∈ ls.texts, Numbered l) → HeaderSemantics c₀ buf ls := by
  intro hall
  have h := hall unused closeLines.buf closeLines (by decide +kernel) (by
    intro l hl v hv
    have hnone : ∀ l ∈ closeLines.texts, headerValue (bytes "Content-Length") l = none := by
      decide +kernel
    rw [hnone l hl] at hv
    cases hv)
  have hlinger := congrArg Headers.linger h.stored
  exact absurd hlinger (by decide +kernel)

end HttpConn

end SocketTest.Http
