import SocketTest.Http.Response

/-!
# The write buffer

`add_response` with the `int`s of the source: `vsnprintf` returns -1 for a text that an `int` cannot
count, which passes the length test. `HttpConn.addResponse` is the same function for all other texts
(`ofConn_addResponse`). `append_atomic` says that calls append whole texts and keep to the buffer exactly
when there is no text of that length.
-/

namespace SocketTest.Http

open SocketTest.Lib

/-- What `vsnprintf` returns. -/
def vsnprintfResult (text : List UInt8) : ℤ := if text.length < 2 ^ 31 then text.length else -1

/-- `m_write_buf`, `m_write_idx` and `m_linger`. -/
structure WriteBuf where
  buf : Buf
  idx : ℤ
  linger : Bool
  faults : List Fault

/-- A call of a function that is based on `add_response`. -/
inductive Append
  | statusLine (status : ℤ) (title : List UInt8)
  | contentLength (n : ℤ)
  | linger
  | blankLine
  | content (s : List UInt8)
  deriving DecidableEq, Repr

/-- The formatted text. -/
def Append.text (linger : Bool) : Append → List UInt8
  | .statusLine status title =>
    bytes "HTTP/1.1" ++ [SP] ++ decimal status ++ [SP] ++ title ++ CRLF
  | .contentLength n => HttpConn.contentLengthLine n
  | .linger => HttpConn.connectionLine linger
  | .blankLine => CRLF
  | .content s => s

namespace WriteBuf

/-- `vsnprintf(m_write_buf + m_write_idx, size, ...)`, which writes the positions from `m_write_idx` up to
the end of the text with its NUL or the end of the `size` bytes. -/
def print (w : WriteBuf) (size : ℤ) (text : List UInt8) : WriteBuf :=
  let stop := w.idx + min size (text.length + 1)
  { w with
    buf := vsnprintf w.buf w.idx.toNat size.toNat text
    faults := if 0 ≤ w.idx ∧ stop ≤ WRITE_BUFFER_SIZE then w.faults
      else w.faults ++ [.outOfBounds (if 0 ≤ w.idx then stop - 1 else w.idx)] }

/-- `add_response`. -/
def addResponse (w : WriteBuf) (text : List UInt8) : Bool × WriteBuf :=
  if WRITE_BUFFER_SIZE ≤ w.idx then (false, w)
  else
    let size := WRITE_BUFFER_SIZE - 1 - w.idx
    let w₁ := w.print size text
    let len := vsnprintfResult text
    if size ≤ len then (false, w₁) else (true, { w₁ with idx := w.idx + len })

def append (w : WriteBuf) (a : Append) : Bool × WriteBuf := w.addResponse (a.text w.linger)

/-- A call with its result. -/
def Step (w : WriteBuf) (a : Append × Bool) (w' : WriteBuf) : Prop := w.append a.1 = (a.2, w')

/-- Behind `init`, with what `parse_headers` has made of `m_linger`. -/
def start (linger : Bool) : WriteBuf := ⟨fun _ => NUL, 0, linger, []⟩

/-- The texts whose calls returned true. -/
def accepted (linger : Bool) (as : List (Append × Bool)) : List UInt8 :=
  (as.filter fun a => a.2).flatMap fun a => a.1.text linger

/-- The buffer holds the texts that have been accepted, nothing has been written behind it, and a call
that returns false leaves it so. -/
structure Atomic (as : List (Append × Bool)) (w : WriteBuf) : Prop where
  nonneg : 0 ≤ w.idx
  bounded : w.idx < WRITE_BUFFER_SIZE
  inside : w.faults = []
  text : contents w.buf 0 w.idx.toNat = accepted w.linger as
  refused : ∀ a w', Step w (a, false) w' →
    w'.idx = w.idx ∧ contents w'.buf 0 w.idx.toNat = contents w.buf 0 w.idx.toNat

/-- `vsnprintf` can count the text. -/
def Countable (linger : Bool) (a : Append) : Prop := (a.text linger).length < 2 ^ 31

variable {w w' : WriteBuf} {as : List (Append × Bool)} {a : Append × Bool} {linger : Bool}
  {text : List UInt8}

/-! ## One call -/

theorem print_contents (size : ℤ) :
    contents (w.print size text).buf 0 w.idx.toNat = contents w.buf 0 w.idx.toNat :=
  contents_vsnprintf_below (Nat.zero_add _).le

theorem print_faults (h0 : 0 ≤ w.idx) :
    (w.print (WRITE_BUFFER_SIZE - 1 - w.idx) text).faults = w.faults :=
  if_pos ⟨h0, by omega⟩

theorem step_cases (hlt : w.idx < WRITE_BUFFER_SIZE) (hs : Step w a w') :
    a.2 = false ∧ WRITE_BUFFER_SIZE - 1 - w.idx ≤ vsnprintfResult (a.1.text w.linger) ∧
        w' = w.print (WRITE_BUFFER_SIZE - 1 - w.idx) (a.1.text w.linger) ∨
      a.2 = true ∧ vsnprintfResult (a.1.text w.linger) < WRITE_BUFFER_SIZE - 1 - w.idx ∧
        w' = { w.print (WRITE_BUFFER_SIZE - 1 - w.idx) (a.1.text w.linger) with
          idx := w.idx + vsnprintfResult (a.1.text w.linger) } := by
  unfold Step append addResponse at hs
  rw [if_neg (by omega)] at hs
  dsimp only at hs
  split_ifs at hs with hfull
  · exact .inl ⟨(congrArg Prod.fst hs).symm, hfull, (congrArg Prod.snd hs).symm⟩
  · exact .inr ⟨(congrArg Prod.fst hs).symm, by omega, (congrArg Prod.snd hs).symm⟩

theorem step_refused (hlt : w.idx < WRITE_BUFFER_SIZE) (a : Append) (w' : WriteBuf)
    (hs : Step w (a, false) w') :
    w'.idx = w.idx ∧ contents w'.buf 0 w.idx.toNat = contents w.buf 0 w.idx.toNat := by
  rcases step_cases hlt hs with ⟨-, -, rfl⟩ | ⟨htrue, -, -⟩
  · exact ⟨rfl, print_contents _⟩
  · cases htrue

theorem accepted_concat (linger : Bool) (as : List (Append × Bool)) (a : Append × Bool) :
    accepted linger (as ++ [a]) = accepted linger as ++ if a.2 then a.1.text linger else [] := by
  obtain ⟨a, ok⟩ := a
  cases ok <;> simp [accepted]

theorem Atomic.step (h : Atomic as w) (hs : Step w a w') (ha : Countable w.linger a.1) :
    Atomic (as ++ [a]) w' ∧ w'.linger = w.linger := by
  have h0 := h.nonneg
  have hlt := h.bounded
  have hlen : vsnprintfResult (a.1.text w.linger) = (a.1.text w.linger).length := if_pos ha
  rcases step_cases hlt hs with ⟨hok, -, rfl⟩ | ⟨hok, hfit, rfl⟩
  · refine ⟨⟨h0, hlt, ?_, ?_, @step_refused (w.print _ _) hlt⟩, rfl⟩
    · rw [print_faults h0, h.inside]
    · rw [accepted_concat, hok]
      exact (print_contents _).trans (h.text.trans (List.append_nil _).symm)
  · rw [hlen] at hfit ⊢
    have hroom : (a.1.text w.linger).length < ((WRITE_BUFFER_SIZE : ℤ) - 1 - w.idx).toNat := by omega
    have hsum : (w.idx + (a.1.text w.linger).length).toNat =
        w.idx.toNat + (a.1.text w.linger).length := by omega
    have hnonneg : 0 ≤ w.idx + (a.1.text w.linger).length := by omega
    have hbound : w.idx + (a.1.text w.linger).length < WRITE_BUFFER_SIZE := by omega
    refine ⟨⟨hnonneg, hbound, ?_, ?_, @step_refused { w.print _ _ with idx := _ } hbound⟩, rfl⟩
    · exact (print_faults h0).trans h.inside
    · rw [accepted_concat, hok, if_pos rfl]
      show contents (vsnprintf _ _ _ _) 0 (w.idx + (a.1.text w.linger).length).toNat = _
      rw [hsum, contents_add, contents_vsnprintf_below (by omega), Nat.zero_add,
        contents_vsnprintf hroom, h.text]
      rfl

/-- A text that cannot be counted is taken for one of -1 bytes. -/
theorem Atomic.not_step (h : Atomic as w) (hs : Step w a w') (ha : ¬ Countable w.linger a.1) :
    ¬ Atomic (as ++ [a]) w' := by
  have h0 := h.nonneg
  have hlen : vsnprintfResult (a.1.text w.linger) = -1 := if_neg ha
  intro h'
  rcases step_cases h.bounded hs with ⟨-, hfull, -⟩ | ⟨hok, -, rfl⟩
  · have := h.bounded
    omega
  · have htext : (contents _ 0 (w.idx + vsnprintfResult (a.1.text w.linger)).toNat).length =
        (accepted w.linger (as ++ [a])).length := congrArg List.length h'.text
    have hbound : w.idx + vsnprintfResult (a.1.text w.linger) < WRITE_BUFFER_SIZE := h'.bounded
    rw [contents_length, accepted_concat, hok, if_pos rfl, List.length_append] at htext
    unfold Countable at ha
    have hsize : WRITE_BUFFER_SIZE = 1024 := rfl
    omega

/-! ## `add_response` of a connection -/

/-- The write buffer of a connection. -/
def ofConn (c : HttpConn) : WriteBuf := ⟨c.writeBuf, c.writeIdx, c.linger, []⟩

/-- The functions of the connection are calls of `add_response` with these texts. -/
theorem conn_appends (c : HttpConn) (status : ℕ) (title content : List UInt8) (n : ℤ) :
    c.addStatusLine status title =
        c.addResponse ((Append.statusLine status title).text c.linger) ∧
      c.addContentLength n = c.addResponse ((Append.contentLength n).text c.linger) ∧
      c.addLinger = c.addResponse (Append.linger.text c.linger) ∧
      c.addBlankLine = c.addResponse (Append.blankLine.text c.linger) ∧
      c.addContent content = c.addResponse ((Append.content content).text c.linger) :=
  ⟨rfl, rfl, rfl, rfl, rfl⟩

theorem ofConn_print {c : HttpConn} (hidx : c.writeIdx < WRITE_BUFFER_SIZE) (text : List UInt8) :
    (ofConn c).print (WRITE_BUFFER_SIZE - 1 - (ofConn c).idx) text = ofConn { c with
      writeBuf := vsnprintf c.writeBuf c.writeIdx (WRITE_BUFFER_SIZE - 1 - c.writeIdx) text } := by
  have hsize : ((WRITE_BUFFER_SIZE : ℤ) - 1 - c.writeIdx).toNat =
      WRITE_BUFFER_SIZE - 1 - c.writeIdx := by omega
  have hinside : ((ofConn c).print (WRITE_BUFFER_SIZE - 1 - (ofConn c).idx) text).faults = [] :=
    print_faults (Int.natCast_nonneg _)
  show WriteBuf.mk (vsnprintf c.writeBuf (c.writeIdx : ℤ).toNat
      ((WRITE_BUFFER_SIZE : ℤ) - 1 - c.writeIdx).toNat text) c.writeIdx c.linger
    ((ofConn c).print (WRITE_BUFFER_SIZE - 1 - (ofConn c).idx) text).faults = _
  rw [hinside, hsize, Int.toNat_natCast]
  rfl

theorem ofConn_addResponse {c : HttpConn} (hidx : c.writeIdx < WRITE_BUFFER_SIZE)
    (htext : text.length < 2 ^ 31) : (ofConn c).addResponse text =
      ((c.addResponse text).1, ofConn (c.addResponse text).2) := by
  have hidx' : ¬ (WRITE_BUFFER_SIZE : ℤ) ≤ (ofConn c).idx := not_le.2 (Int.ofNat_lt.2 hidx)
  have hlen : vsnprintfResult text = text.length := if_pos htext
  have hroom : (WRITE_BUFFER_SIZE : ℤ) - 1 - (ofConn c).idx ≤ text.length ↔
      WRITE_BUFFER_SIZE - 1 - c.writeIdx ≤ text.length := by
    show (WRITE_BUFFER_SIZE : ℤ) - 1 - c.writeIdx ≤ text.length ↔ _
    omega
  unfold addResponse HttpConn.addResponse
  rw [if_neg hidx', if_neg (not_le.2 hidx)]
  dsimp only
  rw [ofConn_print hidx, hlen]
  by_cases hfull : WRITE_BUFFER_SIZE - 1 - c.writeIdx ≤ text.length
  · rw [if_pos (hroom.2 hfull), if_pos hfull]
  · rw [if_neg (mt hroom.1 hfull), if_neg hfull]
    rfl

/-! ## Runs -/

theorem atomic_start (linger : Bool) : Atomic [] (start linger) :=
  have hlt : (start linger).idx < WRITE_BUFFER_SIZE := by
    show (0 : ℤ) < WRITE_BUFFER_SIZE
    decide
  ⟨le_rfl, hlt, rfl, rfl, step_refused hlt⟩

theorem atomic_of_run (hr : Run Step (start linger) as w)
    (hall : ∀ a ∈ as, Countable linger a.1) : Atomic as w := by
  refine (hr.history (fun as w => (∀ a ∈ as, Countable linger a.1) → Atomic as w ∧ w.linger = linger)
    (fun _ => ⟨atomic_start linger, rfl⟩) ?_ hall).1
  intro as s a t ih hs hall
  obtain ⟨h, hl⟩ := ih fun b hb => hall b (List.mem_append_left _ hb)
  obtain ⟨ht, hl'⟩ := h.step hs (by rw [hl]; exact hall a (by simp))
  exact ⟨ht, hl'.trans hl⟩

theorem linger_of_run (hr : Run Step (start linger) as w) : w.linger = linger := by
  apply hr.invariant (I := fun w => w.linger = linger) _ rfl
  rintro s a t hl hs
  rw [← hl]
  have ht : (s.append a.1).2 = t := congrArg Prod.snd hs
  rw [← ht]
  unfold append addResponse
  dsimp only
  split_ifs <;> rfl

/-- **Appends are atomic.** In a sequence of calls behind `init`, the buffer stays in order exactly when
`vsnprintf` can count all texts. -/
theorem append_atomic (hr : Run Step (start linger) as w) :
    (∀ pre v, pre <+: as → Run Step (start linger) pre v → Atomic pre v) ↔
      ∀ a ∈ as, Countable linger a.1 := by
  constructor
  · intro hall a ha
    obtain ⟨pre, post, rfl⟩ := List.append_of_mem ha
    obtain ⟨v, hpre, hrest⟩ := hr.split
    cases hrest with
    | @cons _ u _ _ _ hs _ =>
      have hv := hall pre v (List.prefix_append _ _) hpre
      have hu := hall (pre ++ [a]) u
        ⟨post, by rw [List.append_assoc, List.singleton_append]⟩ (hpre.append (.single hs))
      by_contra hnot
      exact hv.not_step hs (by rwa [linger_of_run hpre]) hu
  · intro hall pre v hpre hv
    exact atomic_of_run hv fun a ha => hall a (hpre.subset ha)

theorem append_atomic_linger :
    Atomic [(.linger, true)] ((start true).append .linger).2 := by
  have hs : Step (start true) (.linger, true) ((start true).append .linger).2 :=
    Prod.ext (by decide) rfl
  have hcount : ∀ a ∈ [(Append.linger, true)], Countable true a.1 := by
    rintro _ (_ | _)
    · show (HttpConn.connectionLine true).length < 2 ^ 31
      decide
    · contradiction
  exact (append_atomic (.single hs)).2 hcount _ _ (List.prefix_refl _) (.single hs)

/-- A body of `2 ^ 31` bytes is accepted, and `m_write_idx` is -1 then. -/
theorem content_not_atomic : ∃ s w, Run Step (start true) [(.content s, true)] w ∧ w.idx = -1 ∧
    ¬ Atomic [(.content s, true)] w := by
  have hlong : ¬ (List.replicate (2 ^ 31) (97 : UInt8)).length < 2 ^ 31 := by
    rw [List.length_replicate]
    exact lt_irrefl _
  generalize List.replicate (2 ^ 31) (97 : UInt8) = s at hlong
  have hlen : vsnprintfResult s = -1 := if_neg hlong
  have hs : Step (start true) (.content s, true)
      { (start true).print (WRITE_BUFFER_SIZE - 1) s with idx := -1 } := by
    unfold Step append addResponse Append.text
    dsimp only
    rw [hlen]
    rfl
  exact ⟨s, _, .single hs, rfl, (atomic_start true).not_step hs hlong⟩

end WriteBuf

end SocketTest.Http
