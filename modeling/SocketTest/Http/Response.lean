import SocketTest.Http.Calls
import SocketTest.Http.Respond

/-!
# Responses

`Appends` says that a step of `process_write` puts a text behind the response built so far. The calls
of one case compose to the whole text, which fits into `m_write_buf`. `Parsed` and `Prepared` are the
states between `init` and `process_write` and behind it.
-/

namespace SocketTest.Http.HttpConn

open SocketTest.Lib

variable {c₀ c c' c'' : HttpConn} {files : Files} {o : Outcome} {s t title form : List UInt8}
  {status : ℕ}

/-! ## Building -/

/-- The response built so far. -/
def response (c : HttpConn) : List UInt8 := contents c.writeBuf 0 c.writeIdx

/-- `c'` is `c` with `s` behind the response. -/
structure Appends (c : HttpConn) (s : List UInt8) (c' : HttpConn) : Prop where
  frame : ∃ buf, c' = { c with writeBuf := buf, writeIdx := c.writeIdx + s.length }
  response : c'.response = c.response ++ s

theorem Appends.writeIdx (h : Appends c s c') : c'.writeIdx = c.writeIdx + s.length := by
  obtain ⟨buf, hc⟩ := h.frame
  rw [hc]

theorem Appends.linger (h : Appends c s c') : c'.linger = c.linger := by
  obtain ⟨buf, hc⟩ := h.frame
  rw [hc]

theorem Appends.fileSize (h : Appends c s c') : c'.fileSize = c.fileSize := by
  obtain ⟨buf, hc⟩ := h.frame
  rw [hc]

theorem Appends.iv0 (h : Appends c s c') : c'.iv0 = c.iv0 := by
  obtain ⟨buf, hc⟩ := h.frame
  rw [hc]

theorem Appends.fileAddress (h : Appends c s c') : c'.fileAddress = c.fileAddress := by
  obtain ⟨buf, hc⟩ := h.frame
  rw [hc]

theorem Appends.trans (h : Appends c s c') (h' : Appends c' t c'') : Appends c (s ++ t) c'' := by
  constructor
  · obtain ⟨buf, hc⟩ := h.frame
    obtain ⟨buf', hc'⟩ := h'.frame
    refine ⟨buf', ?_⟩
    rw [hc', hc, List.length_append, Nat.add_assoc]
  · rw [h'.response, h.response, List.append_assoc]

theorem addResponse_spec (h : c.writeIdx + s.length < WRITE_BUFFER_SIZE - 1) :
    (c.addResponse s).1 = true ∧ Appends c s (c.addResponse s).2 := by
  have hfit : s.length < WRITE_BUFFER_SIZE - 1 - c.writeIdx := by omega
  rw [addResponse, if_neg (by omega)]
  dsimp only
  rw [if_neg (by omega)]
  refine ⟨rfl, ⟨_, rfl⟩, ?_⟩
  show contents _ 0 (c.writeIdx + s.length) = _
  rw [contents_add, contents_vsnprintf_below (by omega), Nat.zero_add, contents_vsnprintf hfit]
  rfl

/-- The lines that `add_headers` writes. -/
def headerLines (linger : Bool) (n : ℤ) : List UInt8 :=
  contentLengthLine n ++ connectionLine linger ++ CRLF

theorem addLinger_spec (h : c.writeIdx + (connectionLine c.linger).length < WRITE_BUFFER_SIZE - 1) :
    Appends c (connectionLine c.linger) c.addLinger.2 := (addResponse_spec h).2

theorem addHeaders_spec {n : ℤ}
    (h : c.writeIdx + (headerLines c.linger n).length < WRITE_BUFFER_SIZE - 1) :
    Appends c (headerLines c.linger n) (c.addHeaders n) := by
  simp only [headerLines, List.length_append] at h
  have h₁ : Appends c (contentLengthLine n) (c.addContentLength n).2 :=
    (addResponse_spec (by omega)).2
  rw [addHeaders, headerLines]
  generalize (c.addContentLength n).2 = c₁ at h₁ ⊢
  have h₂ : Appends c₁ (connectionLine c.linger) c₁.addLinger.2 := by
    have hfit : c₁.writeIdx + (connectionLine c₁.linger).length < WRITE_BUFFER_SIZE - 1 := by
      rw [h₁.linger, h₁.writeIdx]
      omega
    have h₂ := addLinger_spec hfit
    rwa [h₁.linger] at h₂
  generalize c₁.addLinger.2 = c₂ at h₂ ⊢
  have h₃ : Appends c₂ CRLF c₂.addBlankLine.2 :=
    (addResponse_spec (by rw [h₂.writeIdx, h₁.writeIdx]; omega)).2
  exact (h₁.trans h₂).trans h₃

/-- A whole error page. -/
def errorPage (linger : Bool) (status : ℕ) (title form : List UInt8) : List UInt8 :=
  statusLine status title ++ headerLines linger form.length ++ form

/-- `process_write` builds the page, and sets the base of the first segment and the length of the
second. -/
theorem writeError_spec
    (h : c.writeIdx + (errorPage c.linger status title form).length < WRITE_BUFFER_SIZE - 1) :
    ∃ d, Appends c (errorPage c.linger status title form) d ∧
      c.writeError status title form = (true, { d with
        iv0 := { d.iv0 with base := .writeBuf }
        iv1 := { d.iv1 with len := d.writeIdx }
        ivCount := 1 }) := by
  simp only [errorPage, List.length_append] at h
  have h₁ : Appends c (statusLine status title) (c.addStatusLine status title).2 :=
    (addResponse_spec (by omega)).2
  rw [writeError, errorPage]
  dsimp only
  generalize (c.addStatusLine status title).2 = c₁ at h₁ ⊢
  have h₂ : Appends c₁ (headerLines c.linger form.length) (c₁.addHeaders form.length) := by
    have hfit : c₁.writeIdx + (headerLines c₁.linger form.length).length
        < WRITE_BUFFER_SIZE - 1 := by
      rw [h₁.linger, h₁.writeIdx]
      omega
    have h₂ := addHeaders_spec hfit
    rwa [h₁.linger] at h₂
  generalize c₁.addHeaders form.length = c₂ at h₂ ⊢
  obtain ⟨hret, h₃⟩ : (c₂.addContent form).1 = true ∧ Appends c₂ form (c₂.addContent form).2 :=
    addResponse_spec (by rw [h₂.writeIdx, h₁.writeIdx]; omega)
  rw [if_pos hret]
  exact ⟨_, (h₁.trans h₂).trans h₃, rfl⟩

/-- The status line and the headers of a file. -/
def fileHeader (linger : Bool) (size : ℤ) : List UInt8 :=
  statusLine 200 ok200Title ++ headerLines linger (toInt32 size)

theorem processWrite_file (h0 : c.fileSize ≠ 0)
    (h : c.writeIdx + (fileHeader c.linger c.fileSize).length < WRITE_BUFFER_SIZE - 1) :
    ∃ d, Appends c (fileHeader c.linger c.fileSize) d ∧
      c.processWrite .fileRequest = (true, { d with
        iv0 := ⟨.writeBuf, d.writeIdx⟩
        iv1 := ⟨.file, d.fileSize.toNat⟩
        ivCount := 2 }) := by
  simp only [fileHeader, List.length_append] at h
  have h₁ : Appends c (statusLine 200 ok200Title) (c.addStatusLine 200 ok200Title).2 :=
    (addResponse_spec (by omega)).2
  rw [processWrite, fileHeader]
  dsimp only
  generalize (c.addStatusLine 200 ok200Title).2 = c₁ at h₁ ⊢
  rw [if_pos (by rw [h₁.fileSize]; exact h0)]
  have h₂ : Appends c₁ (headerLines c.linger (toInt32 c.fileSize))
      (c₁.addHeaders (toInt32 c₁.fileSize)) := by
    have hfit : c₁.writeIdx + (headerLines c₁.linger (toInt32 c₁.fileSize)).length
        < WRITE_BUFFER_SIZE - 1 := by
      rw [h₁.linger, h₁.fileSize, h₁.writeIdx]
      omega
    have h₂ := addHeaders_spec hfit
    rw [h₁.linger] at h₂
    rwa [h₁.fileSize] at h₂ ⊢
  exact ⟨_, h₁.trans h₂, rfl⟩

/-! ## Behind `init` and `process_read` -/

/-- What `process_write` gets: after `init` and calls of `process_read`, perhaps `do_request` has
found what the file system has. -/
def Answering (c₀ : HttpConn) (files : Files) (c : HttpConn) : Prop :=
  ∃ ls c₁, Run Call c₀.init ls c₁ ∧ (c = c₁ ∨ c = (c₁.doRequest files).2)

theorem writeIdx_of_run {ls : List (List UInt8 × Outcome)} (h : Run Call c₀.init ls c) :
    c.writeIdx = 0 := by
  apply h.invariant (I := fun c => c.writeIdx = 0) _ rfl
  rintro s ⟨chunk, o⟩ t h0 ⟨hread, hr⟩
  rw [(read_eq hread).1] at hr
  exact hr.invariant (I := fun c => c.writeIdx = 0) (fun c h => by rwa [parseLine_writeIdx])
    (fun c c' h hk => hk.writeIdx.trans h) h0

@[simp] theorem doRequest_writeIdx (c : HttpConn) (files : Files) :
    (c.doRequest files).2.writeIdx = c.writeIdx := by
  unfold doRequest
  split
  · rfl
  · dsimp only
    split
    · rfl
    · split_ifs <;> rfl

theorem Answering.writeIdx (h : Answering c₀ files c) : c.writeIdx = 0 := by
  obtain ⟨ls, c₁, hrun, rfl | rfl⟩ := h
  · exact writeIdx_of_run hrun
  · rw [doRequest_writeIdx, writeIdx_of_run hrun]

/-! ## Error pages -/

/-- The codes that get an error page. -/
def errorCodes : List HttpCode := [.internalError, .badRequest, .noResource, .forbiddenRequest]

/-- The status line, the headers, the empty line and the body for an error code. -/
def errorResponse (linger : Bool) : HttpCode → List UInt8
  | .internalError => errorPage linger 500 error500Title error500Form
  | .badRequest => errorPage linger 400 error400Title error400Form
  | .noResource => errorPage linger 404 error404Title error404Form
  | .forbiddenRequest => errorPage linger 403 error403Title error403Form
  | _ => []

theorem errorResponse_length (linger : Bool) {code : HttpCode} (h : code ∈ errorCodes) :
    (errorResponse linger code).length < WRITE_BUFFER_SIZE - 1 := by
  revert code
  cases linger <;> decide +kernel

/-- `process_write` succeeds on the error codes: it builds the whole page, and of `m_iv[0]` it sets
the base alone. -/
theorem processWrite_error (h0 : c.writeIdx = 0) {code : HttpCode} (h : code ∈ errorCodes) :
    (c.processWrite code).1 = true ∧
      (c.processWrite code).2.response = errorResponse c.linger code ∧
      (c.processWrite code).2.iv0 = ⟨.writeBuf, c.iv0.len⟩ ∧ (c.processWrite code).2.ivCount = 1 := by
  have hlen := errorResponse_length c.linger h
  have hempty : c.response = [] := by rw [response, h0]; rfl
  obtain ⟨status, title, form, hpage, hwrite⟩ : ∃ status title form,
      errorResponse c.linger code = errorPage c.linger status title form ∧
        c.processWrite code = c.writeError status title form := by
    simp only [errorCodes, List.mem_cons, List.not_mem_nil, or_false] at h
    rcases h with rfl | rfl | rfl | rfl
    · exact ⟨_, _, _, rfl, rfl⟩
    · exact ⟨_, _, _, rfl, rfl⟩
    · exact ⟨_, _, _, rfl, rfl⟩
    · exact ⟨_, _, _, rfl, rfl⟩
  rw [hpage] at hlen
  obtain ⟨d, hd, he⟩ := writeError_spec (c := c) (by rw [h0, Nat.zero_add]; exact hlen)
  rw [hwrite, he, hpage]
  refine ⟨rfl, ?_, ?_, rfl⟩
  · have hr := hd.response
    rwa [hempty, List.nil_append] at hr
  · rw [← hd.iv0]

/-- What is sent of an error page: as many bytes as `m_iv[0].iov_len` was before. -/
theorem gather_error (h0 : c.writeIdx = 0) {code : HttpCode} (h : code ∈ errorCodes) :
    (c.processWrite code).2.gather = contents (c.processWrite code).2.writeBuf 0 c.iv0.len := by
  obtain ⟨-, -, hiv, hcount⟩ := processWrite_error h0 h
  rw [gather, hiv, hcount]
  simp [segment]

/-- An error page is framed as built exactly when the length left in `m_iv[0]` is the length of the
page. -/
theorem error_framed_iff {code : HttpCode} (h : Answering c₀ files c) (hcode : code ∈ errorCodes) :
    ((c.processWrite code).1 = true →
        (c.processWrite code).2.gather = errorResponse c.linger code) ↔
      c.iv0.len = (errorResponse c.linger code).length := by
  obtain ⟨hret, hresp, -, -⟩ := processWrite_error h.writeIdx hcode
  rw [gather_error h.writeIdx hcode]
  constructor
  · intro hall
    rw [← hall hret, contents_length]
  · intro hlen _
    have hidx : (c.processWrite code).2.writeIdx = (errorResponse c.linger code).length := by
      rw [← hresp, response, contents_length]
    rw [hlen, ← hidx]
    exact hresp

/-- A slot that has just been rejected its first request, `X`. -/
def rejected : HttpConn := (unused.init.receive (bytes "X")).pendingLine.2

theorem rejected_answering : Answering unused (fun _ => none) rejected := by
  refine ⟨[(bytes "X", .code .badRequest)], rejected, .single ⟨by decide, ?_⟩, .inl rfl⟩
  rw [(read_eq (by decide)).1]
  exact (returns_rejected rfl (by decide) (by decide)).2 rfl

theorem error_framed_iff_rejected :
    ((rejected.processWrite .badRequest).1 = true →
        (rejected.processWrite .badRequest).2.gather = errorResponse false .badRequest) ↔
      rejected.iv0.len = (errorResponse false .badRequest).length :=
  error_framed_iff rejected_answering (by decide)

/-- In a slot that has sent nothing before, no byte of the page is sent. -/
theorem error_unframed : ¬ ∀ (c₀ : HttpConn) (files : Files) (c : HttpConn) (code : HttpCode),
    Answering c₀ files c → code ∈ errorCodes → (c.processWrite code).1 = true →
    (c.processWrite code).2.gather = errorResponse c.linger code := by
  intro h
  have h0 := rejected_answering.writeIdx
  have hcode : HttpCode.badRequest ∈ errorCodes := by decide
  have hall := h unused _ rejected _ rejected_answering hcode (processWrite_error h0 hcode).1
  rw [gather_error h0 hcode] at hall
  have hlen := congrArg List.length hall
  rw [contents_length] at hlen
  exact absurd hlen (by decide +kernel)

end SocketTest.Http.HttpConn
