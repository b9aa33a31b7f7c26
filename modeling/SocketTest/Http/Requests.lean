import SocketTest.Http.Calls

/-!
# Requests and runs

A request is a request line, header lines, an empty line and a body. `Recognised` says that a run
ends in `do_request` with the last chunk of the request and not before, `Complete` that the bytes
received are a whole request. No run recognises a request (`not_recognised`).
-/

namespace SocketTest.Http

open SocketTest.Lib

/-- The number that a `Content-Length` header gives. -/
def declares (header : List UInt8) : Option ℕ :=
  if (header.take 15).map toLower = (bytes "Content-Length:").map toLower then
    let digits := ((header.drop 15).dropWhile (fun b => b ∈ blanks)).takeWhile isDigit
    some (digits.foldl (fun n b => n * 10 + (b.toNat - 48)) 0)
  else none

/-- The length of the body: 0 without a `Content-Length` header. -/
def declaredLength (headers : List (List UInt8)) : ℕ := (headers.filterMap declares).getLastD 0

/-- The request line `GET <path> HTTP/1.1`. -/
def requestLine (path : List UInt8) : List UInt8 := bytes "GET " ++ path ++ bytes " HTTP/1.1"

/-- A request: every line and the empty line end with CR LF. -/
def message (line : List UInt8) (headers : List (List UInt8)) (body : List UInt8) : List UInt8 :=
  line ++ CRLF ++ headers.flatMap (fun h => h ++ CRLF) ++ CRLF ++ body

/-- Text of a line. -/
def Text (s : List UInt8) : Prop := ∀ b ∈ s, b ≠ CR ∧ b ≠ LF ∧ b ≠ NUL

structure WellFormed (path : List UInt8) (headers : List (List UInt8)) (body : List UInt8) :
    Prop where
  path_head : path.head? = some 47
  path_text : Text path
  headers_text : ∀ h ∈ headers, h ≠ [] ∧ Text h
  body_length : body.length = declaredLength headers

/-- The bytes received begin with a request line, header lines, the empty line and at least as many
bytes as the headers give. -/
def Complete (received : List UInt8) : Prop :=
  ∃ line headers body, received = message line headers body ∧
    (line ≠ [] ∧ ¬ CRLF <:+: line) ∧ (∀ h ∈ headers, h ≠ [] ∧ ¬ CRLF <:+: h) ∧
    declaredLength headers ≤ body.length

theorem Complete.append {received : List UInt8} (h : Complete received) (chunk : List UInt8) :
    Complete (received ++ chunk) := by
  obtain ⟨line, headers, body, hr, hline, hheaders, hbody⟩ := h
  refine ⟨line, headers, body ++ chunk, ?_, hline, hheaders, ?_⟩
  · rw [hr, message, message, List.append_assoc _ body chunk]
  · rw [List.length_append]
    omega

namespace HttpConn

variable {c₀ c c' : HttpConn} {o : Outcome} {received : List (List UInt8)}

/-- The C string at `p` is `s`. -/
def isString (buf : Buf) (p : ℕ) : List UInt8 → Bool
  | [] => buf p = NUL
  | b :: s => buf p = b ∧ isString buf (p + 1) s

/-- Every call before the last returns `NO_REQUEST` and the last one comes to `do_request` with this
path and this body length. -/
def Recognised (c₀ : HttpConn) (chunks : List (List UInt8)) (path : List UInt8) (n : ℕ) : Prop :=
  ∃ earlier last c₁ c₂, chunks = earlier ++ [last] ∧
    Run Call c₀.init (earlier.map fun chunk => (chunk, .code .noRequest)) c₁ ∧
    Call c₁ (last, .doRequest) c₂ ∧
    (∃ url, c₂.url = some url ∧ isString c₂.readBuf url path) ∧ c₂.contentLength = n

/-! ## A request is not recognised -/

/-- After calls that all returned `NO_REQUEST`: the request line has not been looked at and the bytes
from `m_checked_idx` on are as received. -/
structure Unread (w : List UInt8) (c : HttpConn) : Prop where
  resumed : Resumed c
  checkState : c.checkState = .requestLine
  readIdx : c.readIdx = w.length
  ahead : ∀ i, c.checkedIdx ≤ i → c.readBuf i = w.getD i NUL

theorem Unread.init (c : HttpConn) : Unread [] c.init := ⟨Resumed.init c, rfl, rfl, fun _ _ => rfl⟩

theorem Unread.read {w chunk : List UInt8} (h : Unread w c) (hr : (c.read chunk).1 = true) :
    Unread (w ++ chunk) (c.read chunk).2 := by
  have hres := h.resumed.read hr
  have hread := h.readIdx
  rw [(read_eq hr).1] at hres ⊢
  refine ⟨hres, h.checkState, ?_, ?_⟩
  · rw [List.length_append, ← hread]
    rfl
  · intro i hi
    show (if c.readIdx ≤ i ∧ i < c.readIdx + chunk.length then chunk.getD (i - c.readIdx) NUL
      else c.readBuf i) = _
    split_ifs with hin
    · rw [List.getD_append_right _ _ _ _ (by omega), hread]
    · rw [h.ahead i hi]
      rcases Nat.lt_or_ge i w.length with hlt | hge
      · rw [List.getD_append _ _ _ _ hlt]
      · rw [List.getD_eq_default _ _ hge,
          List.getD_eq_default _ _ (by rw [List.length_append]; omega)]

theorem Unread.line {w : List UInt8} (h : Unread w c) (hl : c.parseLine.1 = .ok) :
    Unread w c.parseLine.2 := by
  have hres := h.resumed
  refine ⟨⟨hres.clear.parseLine, ?_⟩, ?_, ?_, ?_⟩
  · intro _
    rw [parseLine_contentLength, hres.contentLength h.checkState]
  · rw [parseLine_checkState, h.checkState]
  · rw [parseLine_readIdx, h.readIdx]
  · intro j hj
    have hp := parseLine_spec hres.clear.checked_le
    generalize c.parseLine = r at hp hl hj
    cases hp with
    | stopped _ _ _ hs => exact absurd hl hs.ne_ok
    | @line i hi _ _ _ =>
      have hj' : i + 2 ≤ j := hj
      rw [takeLine_readBuf, Function.update_of_ne (by omega), Function.update_of_ne (by omega)]
      exact h.ahead j (by omega)

theorem Unread.call {w chunk : List UInt8} (h : Unread w c)
    (hc : Call c (chunk, .code .noRequest) c') : Unread (w ++ chunk) c' := by
  obtain ⟨hread, hr⟩ := hc
  have h' := h.read hread
  rcases returns_requestLine h'.resumed h'.checkState hr with ⟨hl, he⟩ | ⟨-, -, he⟩ | ⟨-, -, he⟩
  · cases he
    exact h'.line hl
  · cases he
  · cases he

theorem unread_of_run {earlier : List (List UInt8)}
    (h : Run Call c₀.init (earlier.map fun chunk => (chunk, .code .noRequest)) c) :
    Unread earlier.flatten c := by
  have hrun := h.history
    (fun ls c => (∀ a ∈ ls, a.2 = .code .noRequest) → Unread (ls.map Prod.fst).flatten c)
    (fun _ => Unread.init c₀) (by
      rintro ls s ⟨chunk, o⟩ t ih hc hall
      have ho : o = .code .noRequest := hall (chunk, o) (by simp)
      subst ho
      have hs := ih fun a ha => hall a (by simp [ha])
      simpa using hs.call hc)
  simpa [Function.comp_def] using hrun (by simp)

/-- When the scan runs out, the last byte received is no LF that was still ahead. -/
theorem Unread.last_ne_LF {w : List UInt8} (h : Unread w c) (hout : c.RunsOut)
    (hlt : c.checkedIdx < w.length) : w.getD (w.length - 1) NUL ≠ LF := by
  obtain ⟨hl, hend⟩ := hout
  have hp := parseLine_spec h.resumed.clear.checked_le
  generalize c.parseLine = r at hp hl hend
  cases hp with
  | line => exact absurd rfl hl
  | @stopped i s _ _ hno _ =>
    have hi : i = w.length := hend.trans h.readIdx
    rw [← h.ahead _ (by omega)]
    exact hno _ (by omega) (by omega)

theorem message_nil_last (line : List UInt8) (headers : List (List UInt8)) :
    (message line headers []).getD ((message line headers []).length - 1) NUL = LF := by
  have hsplit : message line headers []
      = (line ++ CRLF ++ headers.flatMap (fun h => h ++ CRLF) ++ [CR]) ++ [LF] := by
    simp [message, CRLF]
  rw [hsplit, List.length_append, List.length_singleton, Nat.add_sub_cancel,
    List.getD_append_right _ _ _ _ le_rfl, Nat.sub_self]
  rfl

/-- However a request arrives, it is not recognised: the loop stops at every complete line, and when
no line is left the rest counts as the empty line, with the header lines skipped. -/
theorem not_recognised (c₀ : HttpConn) {path : List UInt8} {headers : List (List UInt8)}
    {body : List UInt8} {chunks : List (List UInt8)} (hw : WellFormed path headers body)
    (hchunks : chunks.flatten = message (requestLine path) headers body)
    (hne : ∀ chunk ∈ chunks, chunk ≠ []) :
    ¬ Recognised c₀ chunks path (declaredLength headers) := by
  rintro ⟨earlier, last, c₁, c₂, rfl, hrun, ⟨hread, hr⟩, -, hlen⟩
  have h₁ := unread_of_run hrun
  have h₂ := h₁.read hread
  have hc₀ : (c₁.read last).2.contentLength = 0 := h₂.resumed.contentLength h₂.checkState
  rcases returns_requestLine h₂.resumed h₂.checkState hr with
    ⟨-, he⟩ | ⟨-, -, he⟩ | ⟨hout, hacc, he⟩
  · cases he
  · cases he
  · cases he
    have ha := pendingLine_accepted h₂.resumed.clear.checked_le hout.1 hacc
    -- no header line has been parsed, so that the body length can only be 0
    have hbody : body = [] := by
      rw [ha.contentLength, hc₀] at hlen
      apply List.eq_nil_of_length_eq_zero
      rw [hw.body_length]
      exact_mod_cast hlen.symm
    have hflat : earlier.flatten ++ last = message (requestLine path) headers [] := by
      rw [← hbody, ← hchunks]
      simp
    have hlast : 0 < last.length := List.length_pos_iff.2 (hne last (by simp))
    have hchecked := h₁.resumed.clear.checked_le
    have hsame : (c₁.read last).2.checkedIdx = c₁.checkedIdx := by
      rw [(read_eq hread).1]
      rfl
    have hlt : (c₁.read last).2.checkedIdx < (earlier.flatten ++ last).length := by
      rw [hsame, List.length_append, ← h₁.readIdx]
      omega
    apply h₂.last_ne_LF hout hlt
    rw [hflat]
    exact message_nil_last _ _

theorem wellFormed_root : WellFormed (bytes "/") [] [] := by
  refine ⟨rfl, ?_, by simp, rfl⟩
  intro b hb
  rw [List.mem_singleton.1 (show b ∈ [47] from hb)]
  decide

/-- `GET / HTTP/1.1` with no header gets `NO_REQUEST`. -/
theorem not_recognised_root : ¬ Recognised unused [message (requestLine (bytes "/")) [] []]
    (bytes "/") (declaredLength []) :=
  not_recognised unused wellFormed_root (by simp) (by decide)

theorem request_missed : ¬ ∀ (c₀ : HttpConn) (path : List UInt8) (headers : List (List UInt8))
    (body : List UInt8) (chunks : List (List UInt8)), WellFormed path headers body →
    chunks.flatten = message (requestLine path) headers body → (∀ chunk ∈ chunks, chunk ≠ []) →
    chunks.flatten.length < READ_BUFFER_SIZE →
    Recognised c₀ chunks path (declaredLength headers) := by
  intro h
  obtain ⟨earlier, last, c₁, c₂, hchunks, hrun, ⟨hread, hr⟩, -⟩ :=
    h unused _ _ _ [message (requestLine (bytes "/")) [] []] wellFormed_root (by simp) (by decide)
      (by decide)
  obtain ⟨rfl, rfl⟩ : earlier = [] ∧ message (requestLine (bytes "/")) [] [] = last := by
    cases earlier with
    | nil => simpa using hchunks
    | cons a earlier => simp at hchunks
  cases hrun
  rw [(read_eq hread).1] at hr
  -- the only line of the chunk that `parse_line` finds ends the loop
  have hl : (unused.init.receive (message (requestLine (bytes "/")) [] [])).parseLine.1 = .ok := by
    decide
  cases (returns_line (by decide) hl).1 hr

end HttpConn

end SocketTest.Http
