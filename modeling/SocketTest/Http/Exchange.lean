import SocketTest.Http.Body
import SocketTest.Http.OneResponse
import SocketTest.Http.WholePath

/-!
# A whole exchange

What a client gets for a request line, when the socket takes all that `writev` is given: from the bytes
received over `process_read`, `do_request` and `process_write` to the bytes sent. A file is sent once.
Of an error page `write` sends the part that `m_iv[0]` has room for, which is the length of the header of
the last file sent from the slot, and sends it again until half of the sum has passed the length of the
page. With no room it never comes out of its loop.

1. The loop of `write`.
2. The page in `m_write_buf`.
3. From the request line to the answer.
-/

namespace SocketTest.Http.HttpConn

open SocketTest.Lib

variable {c₀ c c' : HttpConn} {files : Files} {g : GetLine} {code : HttpCode}

/-! ## The loop of `write` -/

/-- A round of the loop of `write` on a socket that takes all it is given, with what it has got so far. -/
def sendRound (s : HttpConn × ℤ × ℤ × List UInt8) :
    (Phase × List UInt8) ⊕ (HttpConn × ℤ × ℤ × List UInt8) :=
  let out := s.2.2.2 ++ s.1.gather
  match s.1.writeRound s.2.1 s.2.2.1 (.sent s.1.gather.length) with
  | (.loop toSend haveSend, c) => .inr (c, toSend, haveSend, out)
  | (phase, _) => .inl (phase, out)

/-- The loop ends, and the socket has got `out`. -/
def Sends (c : HttpConn) (phase : Phase) (out : List UInt8) : Prop :=
  Loop.Ends sendRound (c, c.writeIdx, 0, []) (phase, out)

/-- The rounds until the bytes sent are half of the length of the header or page. -/
def rounds (length taken : ℕ) : ℕ := (length + 2 * taken - 1) / (2 * taken)

theorem rounds_spec {length taken n : ℕ} (ht : 0 < taken) :
    rounds length taken ≤ n ↔ length ≤ 2 * n * taken := by
  unfold rounds
  rw [← Nat.lt_succ_iff, Nat.div_lt_iff_lt_mul (by omega)]
  have h : n.succ * (2 * taken) = 2 * n * taken + 2 * taken := by
    rw [Nat.succ_eq_add_one]
    ring
  rw [h]
  omega

/-- What the socket has got when `n` rounds have not been enough. -/
def Sent (c : HttpConn) (n : ℕ) (s : HttpConn × ℤ × ℤ × List UInt8) : Prop :=
  2 * n * c.gather.length < c.writeIdx ∧
    s = (c, (c.writeIdx : ℤ) - n * c.gather.length, (n : ℤ) * c.gather.length,
      (List.replicate n c.gather).flatten)

theorem Sent.round {n : ℕ} {s : HttpConn × ℤ × ℤ × List UInt8} (h : Sent c n s) :
    2 * (n + 1) * c.gather.length < c.writeIdx ∧ (∃ s', sendRound s = .inr s' ∧ Sent c (n + 1) s') ∨
      c.writeIdx ≤ 2 * (n + 1) * c.gather.length ∧
        sendRound s = .inl (.finished c.linger, (List.replicate (n + 1) c.gather).flatten) := by
  obtain ⟨-, rfl⟩ := h
  have hsum : (List.replicate (n + 1) c.gather).flatten =
      (List.replicate n c.gather).flatten ++ c.gather := by
    rw [List.replicate_succ', List.flatten_append, List.flatten_singleton]
  have hcount : ((n + 1 : ℕ) : ℤ) * c.gather.length =
      n * c.gather.length + c.gather.length := by push_cast; ring
  by_cases hlt : 2 * (n + 1) * c.gather.length < c.writeIdx
  · left
    have hnot : ¬ ((c.writeIdx : ℤ) - n * c.gather.length - c.gather.length ≤
        n * c.gather.length + c.gather.length) := by
      zify at hlt
      linarith
    refine ⟨hlt, _, ?_, hlt, rfl⟩
    simp only [sendRound, writeRound, if_neg hnot, hsum, hcount]
    exact congrArg Sum.inr (Prod.ext rfl (Prod.ext (by dsimp only; ring) rfl))
  · right
    have hle : (c.writeIdx : ℤ) - n * c.gather.length - c.gather.length ≤
        n * c.gather.length + c.gather.length := by
      zify at hlt
      linarith
    refine ⟨not_lt.1 hlt, ?_⟩
    simp only [sendRound, writeRound, if_pos hle, hsum]

theorem Sent.start (h : 0 < c.writeIdx) : Sent c 0 (c, c.writeIdx, 0, []) := by
  refine ⟨by simpa using h, ?_⟩
  simp

/-- With nothing to gather, the loop of `write` goes on for ever. -/
theorem not_sends (h : 0 < c.writeIdx) (hg : c.gather = []) (phase : Phase) (out : List UInt8) :
    ¬ Sends c phase out := by
  refine Loop.not_ends (I := fun s => ∃ n, Sent c n s) ?_ ⟨0, Sent.start h⟩
  rintro s ⟨n, hs⟩
  rcases hs.round with ⟨-, s', hb, hs'⟩ | ⟨hle, -⟩
  · exact ⟨s', hb, n + 1, hs'⟩
  · rw [hg, List.length_nil, Nat.mul_zero] at hle
    omega

/-- What is gathered is sent as often as it takes to pass half of the length that `write` knows of. -/
theorem sends_iff (h : 0 < c.writeIdx) (hg : c.gather ≠ []) (phase : Phase) (out : List UInt8) :
    Sends c phase out ↔ phase = .finished c.linger ∧
      out = (List.replicate (rounds c.writeIdx c.gather.length) c.gather).flatten := by
  have hpos : 0 < c.gather.length := List.length_pos_of_ne_nil hg
  have hspec := fun n => @rounds_spec c.writeIdx c.gather.length n hpos
  obtain ⟨b, hb, hq⟩ : ∃ b, Loop.Ends sendRound (c, c.writeIdx, 0, []) b ∧
      b = (.finished c.linger,
        (List.replicate (rounds c.writeIdx c.gather.length) c.gather).flatten) := by
    refine Loop.ends_of_variant (I := fun s => ∃ n, Sent c n s)
      (fun s => (s.2.1 - s.2.2.1).toNat) ?_ ?_ ⟨0, Sent.start h⟩
    · rintro s s' ⟨n, hs⟩ hb
      rcases hs.round with ⟨hlt, s₁, hb₁, hs₁⟩ | ⟨-, he⟩
      · rw [hb₁] at hb
        cases hb
        refine ⟨⟨n + 1, hs₁⟩, ?_⟩
        obtain ⟨hn, rfl⟩ := hs
        obtain ⟨-, rfl⟩ := hs₁
        dsimp only
        zify at hlt hn hpos
        push_cast at hlt hn ⊢
        rw [Int.toNat_lt_toNat (by linarith)]
        linarith
      · rw [he] at hb
        cases hb
    · rintro s b ⟨n, hs⟩ hb
      rcases hs.round with ⟨-, s₁, hb₁, -⟩ | ⟨hle, he⟩
      · rw [hb₁] at hb
        cases hb
      · rw [he] at hb
        cases hb
        have h1 := (hspec (n + 1)).2 hle
        have h2 : ¬ rounds c.writeIdx c.gather.length ≤ n := by
          rw [hspec]
          exact not_le.2 hs.1
        rw [show rounds c.writeIdx c.gather.length = n + 1 by omega]
  subst hq
  constructor
  · intro hs
    exact Prod.mk.inj (Loop.Ends.unique hs hb)
  · rintro ⟨rfl, rfl⟩
    exact hb

/-! ## The page in `m_write_buf` -/

/-- A connection without a response, whose `m_write_buf` is zeroed. -/
structure Blank (c : HttpConn) : Prop where
  writeBuf : c.writeBuf = bufOf []
  writeIdx : c.writeIdx = 0

/-- `c` with `s` in `m_write_buf`. -/
def withPage (c : HttpConn) (s : List UInt8) : HttpConn :=
  { c with writeBuf := bufOf s, writeIdx := s.length }

theorem Blank.withPage (h : Blank c) : c.withPage [] = c := by
  cases c
  obtain ⟨rfl, rfl⟩ := h
  rfl

theorem addResponse_withPage {s text : List UInt8} (h : s.length + text.length < WRITE_BUFFER_SIZE - 1) :
    (c.withPage s).addResponse text = (true, c.withPage (s ++ text)) := by
  have hroom : ¬ WRITE_BUFFER_SIZE ≤ (c.withPage s).writeIdx := by
    show ¬ WRITE_BUFFER_SIZE ≤ s.length
    omega
  have hsize : ¬ WRITE_BUFFER_SIZE - 1 - (c.withPage s).writeIdx ≤ text.length := by
    show ¬ WRITE_BUFFER_SIZE - 1 - s.length ≤ text.length
    omega
  have hfit : text.length < WRITE_BUFFER_SIZE - 1 - s.length := by omega
  have hbuf : vsnprintf (bufOf s) s.length (WRITE_BUFFER_SIZE - 1 - s.length) text =
      bufOf (s ++ text) := by
    funext i
    unfold vsnprintf bufOf
    by_cases hi : s.length ≤ i
    · rw [List.getD_append_right _ _ _ _ hi, List.getD_eq_default _ _ hi]
      by_cases ht : i - s.length < text.length
      · rw [if_pos (by omega), if_neg (by omega)]
      · rw [List.getD_eq_default _ _ (by omega)]
        split_ifs <;> rfl
    · rw [if_neg (by omega), List.getD_append _ _ _ _ (by omega)]
  rw [addResponse, if_neg hroom]
  dsimp only
  rw [if_neg hsize]
  refine Prod.ext rfl ?_
  exact congrArg₂ (fun buf n => { c with writeBuf := buf, writeIdx := n }) hbuf
    List.length_append.symm

/-- The response to an error code, with what is left of `m_iv[0]`. -/
theorem processWrite_page (h : Blank c) (hcode : code ∈ errorCodes) :
    c.processWrite code = (true, { c.withPage (errorResponse c.linger code) with
      iv0 := ⟨.writeBuf, c.iv0.len⟩
      iv1 := { c.iv1 with len := (errorResponse c.linger code).length }
      ivCount := 1 }) := by
  have hlen := errorResponse_length c.linger hcode
  obtain ⟨status, title, form, hpage, hwrite⟩ : ∃ status title form,
      errorResponse c.linger code = errorPage c.linger status title form ∧
        c.processWrite code = c.writeError status title form := by
    simp only [errorCodes, List.mem_cons, List.not_mem_nil, or_false] at hcode
    rcases hcode with rfl | rfl | rfl | rfl
    · exact ⟨_, _, _, rfl, rfl⟩
    · exact ⟨_, _, _, rfl, rfl⟩
    · exact ⟨_, _, _, rfl, rfl⟩
    · exact ⟨_, _, _, rfl, rfl⟩
  rw [hpage] at hlen ⊢
  rw [hwrite]
  simp only [errorPage, headerLines, List.length_append] at hlen
  have hstatus : c.addStatusLine status title = (true, c.withPage (statusLine status title)) := by
    have := @addResponse_withPage c [] (statusLine status title) (by simp only [List.length_nil]; omega)
    rwa [h.withPage] at this
  have hheaders : (c.withPage (statusLine status title)).addHeaders form.length =
      c.withPage (statusLine status title ++ headerLines c.linger form.length) := by
    unfold addHeaders addContentLength addLinger addBlankLine
    rw [addResponse_withPage (by omega)]
    show ((((c.withPage _).addResponse (connectionLine c.linger)).2).addResponse CRLF).2 = _
    rw [addResponse_withPage (by simp only [List.length_append]; omega)]
    show ((c.withPage _).addResponse CRLF).2 = _
    rw [addResponse_withPage (by simp only [List.length_append]; omega)]
    simp only [headerLines, List.append_assoc]
  rw [writeError, hstatus]
  dsimp only
  rw [hheaders, addContent, addResponse_withPage (by
    simp only [headerLines, List.length_append]; omega), if_pos rfl]
  rfl

/-! ## What is sent -/

/-- The code for what `stat` finds. -/
def replyCode : Option FileStat → HttpCode
  | none => .noResource
  | some st =>
    if ¬ st.othersRead then .forbiddenRequest
    else if st.isDir then .badRequest
    else .fileRequest

/-- What the socket gets for a code and a file, `room` being the length that `m_iv[0]` was left with.
Nothing is said where nothing is sent. -/
def reply (room : ℕ) (code : HttpCode) (file : List UInt8) : Option (List UInt8) :=
  if code = .fileRequest then
    if file = [] then none else some (fileHeader false file.length ++ file)
  else if room = 0 then none
  else some (List.replicate (rounds (errorResponse false code).length room)
    (contents (bufOf (errorResponse false code)) 0 room)).flatten

/-- `process_write` prepares a response to the code, and `write` sends `out`. -/
def Delivers (c : HttpConn) (code : HttpCode) (out : List UInt8) : Prop :=
  (c.processWrite code).1 = true ∧ ∃ phase, Sends (c.processWrite code).2 phase out

/-- `process_write` prepares a response to the code, and `write` does not return. -/
def Hangs (c : HttpConn) (code : HttpCode) : Prop :=
  (c.processWrite code).1 = true ∧ ∀ phase out, ¬ Sends (c.processWrite code).2 phase out

/-- What stays as `init` has it until `process_write`. -/
structure Unanswered (c₀ c : HttpConn) : Prop where
  blank : Blank c
  headless : Headless c
  iv0 : c.iv0 = c₀.iv0

theorem Unanswered.init (c : HttpConn) : Unanswered c c.init := by
  refine ⟨⟨?_, rfl⟩, Headless.init c, rfl⟩
  funext i
  rfl

theorem Unanswered.read (h : Unanswered c₀ c) {chunk : List UInt8} (hr : (c.read chunk).1 = true) :
    Unanswered c₀ (c.read chunk).2 := by
  rw [(read_eq hr).1]
  exact ⟨⟨h.blank.writeBuf, h.blank.writeIdx⟩,
    ⟨h.headless.linger, h.headless.contentLength, h.headless.host⟩, h.iv0⟩

theorem Unanswered.parseLine (h : Unanswered c₀ c) : Unanswered c₀ c.parseLine.2 := by
  have hh := h.headless.parseLine
  obtain ⟨buf, i, hc⟩ := parseLine_frame c
  rw [hc] at hh ⊢
  exact ⟨⟨h.blank.writeBuf, h.blank.writeIdx⟩, hh, h.iv0⟩

theorem Unanswered.pendingLine (h : Unanswered c₀ c) : Unanswered c₀ c.pendingLine.2 := by
  have hh := h.headless.pendingLine
  have hl := h.parseLine
  unfold HttpConn.pendingLine at hh ⊢
  obtain ⟨buf, st, m, u, v, hc, -, -⟩ :=
    parseRequestLine_frame c.parseLine.2.nextLine c.startLine
  rw [hc] at hh ⊢
  exact ⟨⟨hl.blank.writeBuf, hl.blank.writeIdx⟩, hh, hl.iv0⟩

theorem Unanswered.returns (h : Unanswered c₀ c) (hc : Resumed c) (hst : c.checkState = .requestLine)
    {o : Outcome} (hr : Returns c o c') : Unanswered c₀ c' := by
  rcases returns_requestLine hc hst hr with ⟨-, he⟩ | ⟨-, -, he⟩ | ⟨-, -, he⟩
  · cases he
    exact h.parseLine
  · cases he
    exact h.pendingLine
  · cases he
    exact h.pendingLine

theorem Unanswered.doRequest (h : Unanswered c₀ c) (files : Files) :
    Unanswered c₀ (c.doRequest files).2 := by
  have hh := h.headless.doRequest files
  refine ⟨⟨?_, ?_⟩, hh, ?_⟩
  · rw [← h.blank.writeBuf]
    unfold HttpConn.doRequest
    cases c.url with
    | none => rfl
    | some url =>
      dsimp only
      cases files _ with
      | none => rfl
      | some st =>
        dsimp only
        split_ifs <;> rfl
  · rw [doRequest_writeIdx, h.blank.writeIdx]
  · rw [← h.iv0]
    unfold HttpConn.doRequest
    cases c.url with
    | none => rfl
    | some url =>
      dsimp only
      cases files _ with
      | none => rfl
      | some st =>
        dsimp only
        split_ifs <;> rfl

theorem unanswered_of_run {earlier : List (List UInt8)}
    (hrun : Run Call c₀.init (earlier.map fun chunk => (chunk, .code .noRequest)) c) :
    Unanswered c₀ c := by
  have hall := hrun.history (fun ls c => (∀ a ∈ ls, a.2 = .code .noRequest) →
    Unanswered c₀ c ∧ Resumed c ∧ c.checkState = .requestLine)
    (fun _ => ⟨.init c₀, .init c₀, rfl⟩) (by
      rintro ls s ⟨chunk, o⟩ t ih ⟨hread, hr⟩ hall
      have ho : o = .code .noRequest := hall (chunk, o) (by simp)
      subst ho
      obtain ⟨hs, hres, hst⟩ := ih fun a ha => hall a (by simp [ha])
      have hst' : (s.read chunk).2.checkState = .requestLine := by
        rw [(read_eq hread).1]
        exact hst
      have hres' := hres.read hread
      have h' := hs.read hread
      refine ⟨h'.returns hres' hst' hr, hres'.returns hr, ?_⟩
      exact (h'.headless.returns hres' hst' hr).2 rfl)
  exact (hall (by simp)).1

/-- A response that is prepared and has something to send is sent in `rounds` copies. -/
theorem delivers_iff (hret : (c.processWrite code).1 = true)
    (hpos : 0 < (c.processWrite code).2.writeIdx) (hne : (c.processWrite code).2.gather ≠ [])
    (out : List UInt8) :
    (Delivers c code out ↔ out = (List.replicate (rounds (c.processWrite code).2.writeIdx
        (c.processWrite code).2.gather.length) (c.processWrite code).2.gather).flatten) ∧
      ¬ Hangs c code := by
  have hiff := sends_iff hpos hne
  constructor
  · constructor
    · rintro ⟨-, phase, hs⟩
      exact ((hiff phase out).1 hs).2
    · intro he
      exact ⟨hret, _, (hiff _ out).2 ⟨rfl, he⟩⟩
  · rintro ⟨-, hno⟩
    exact hno _ _ ((hiff _ _).2 ⟨rfl, rfl⟩)

/-- The response to an error code. -/
theorem Unanswered.error (h : Unanswered c₀ c) (hcode : code ∈ errorCodes) :
    (c.processWrite code).1 = true ∧
      (c.processWrite code).2.writeIdx = (errorResponse false code).length ∧
      (c.processWrite code).2.gather = contents (bufOf (errorResponse false code)) 0 c₀.iv0.len := by
  rw [processWrite_page h.blank hcode, h.headless.linger]
  refine ⟨rfl, rfl, ?_⟩
  show ([_, _].take 1).flatMap _ = _
  rw [← h.iv0]
  simp [segment, withPage]

theorem errorResponse_pos (hcode : code ∈ errorCodes) : 0 < (errorResponse false code).length := by
  revert code
  decide +kernel

theorem Unanswered.delivers_error (h : Unanswered c₀ c) (hcode : code ∈ errorCodes) (out : List UInt8) :
    (Delivers c code out ↔ reply c₀.iv0.len code c.file = some out) ∧
      (Hangs c code ↔ c₀.iv0.len = 0) := by
  obtain ⟨hret, hidx, hgather⟩ := h.error hcode
  have hpos : 0 < (c.processWrite code).2.writeIdx := hidx ▸ errorResponse_pos hcode
  have hne : code ≠ .fileRequest := by
    rintro rfl
    exact absurd hcode (by decide)
  unfold reply
  rw [if_neg hne]
  by_cases h0 : c₀.iv0.len = 0
  · have hnil : (c.processWrite code).2.gather = [] := by
      rw [hgather, h0]
      rfl
    have hno := not_sends hpos hnil
    rw [if_pos h0]
    constructor
    · refine iff_of_false ?_ nofun
      rintro ⟨-, phase, hs⟩
      exact hno phase out hs
    · exact iff_of_true ⟨hret, hno⟩ h0
  · have hlen : (c.processWrite code).2.gather.length = c₀.iv0.len := by
      rw [hgather, contents_length]
    have hnn : (c.processWrite code).2.gather ≠ [] := by
      rw [← List.length_pos_iff, hlen]
      omega
    obtain ⟨hiff, hno⟩ := delivers_iff hret hpos hnn out
    rw [hidx, hlen, hgather] at hiff
    rw [if_neg h0]
    exact ⟨hiff.trans (eq_comm.trans Option.some_inj.symm), iff_of_false hno h0⟩

/-- The response with a file that is not empty. -/
theorem Unanswered.withFile (h : Unanswered c₀ c) (hsize : c.fileSize = c.file.length)
    (h0 : c.fileSize ≠ 0) :
    (c.processWrite .fileRequest).1 = true ∧
      (c.processWrite .fileRequest).2.writeIdx = (fileHeader false c.file.length).length ∧
      (c.processWrite .fileRequest).2.gather = fileHeader false c.file.length ++ c.file := by
  have hfit : c.writeIdx + (fileHeader c.linger c.fileSize).length < WRITE_BUFFER_SIZE - 1 := by
    rw [h.blank.writeIdx, Nat.zero_add]
    exact fileHeader_length _ _
  obtain ⟨d, hd, he⟩ := HttpConn.processWrite_file h0 hfit
  have hfile : d.file = c.file := by rw [HttpConn.file, hd.fileAddress, HttpConn.file]
  have hn : d.fileSize.toNat = d.file.length := by rw [hd.fileSize, hsize, hfile]; rfl
  have hresp : d.response = fileHeader false c.file.length := by
    rw [hd.response, h.headless.linger, hsize]
    unfold HttpConn.response
    rw [h.blank.writeIdx]
    rfl
  refine ⟨by rw [he], ?_, ?_⟩
  · rw [he, ← hresp]
    exact (contents_length _ _ _).symm
  · rw [he, ← hresp, ← hfile]
    simp only [HttpConn.gather, segment, List.take, List.flatMap_cons, List.flatMap_nil,
      List.append_nil, hn]
    show contents d.writeBuf 0 d.writeIdx ++ d.file.take d.file.length = _
    rw [List.take_length]
    rfl

theorem processWrite_emptyFile (h0 : c.fileSize = 0) : (c.processWrite .fileRequest).1 = false := by
  have hstatus : (c.addStatusLine 200 ok200Title).2.fileSize = 0 :=
    (addResponse_grows _ _).fileSize.trans h0
  rw [processWrite]
  dsimp only
  rw [if_neg (not_not.2 hstatus)]

/-- Where one round takes as much as the length there is no second. -/
theorem rounds_one {length taken : ℕ} (h : 0 < length) (hle : length ≤ taken) :
    rounds length taken = 1 := by
  have ht : 0 < taken := h.trans_le hle
  have h1 : rounds length taken ≤ 1 := (rounds_spec ht).2 (by omega)
  have h2 : ¬ rounds length taken ≤ 0 := by
    rw [rounds_spec ht]
    omega
  omega

/-- The response with a file. -/
theorem Unanswered.delivers_file (h : Unanswered c₀ c) (hsize : c.fileSize = c.file.length)
    (out : List UInt8) :
    (Delivers c .fileRequest out ↔ reply c₀.iv0.len .fileRequest c.file = some out) ∧
      ¬ Hangs c .fileRequest := by
  unfold reply
  rw [if_pos rfl]
  by_cases h0 : c.fileSize = 0
  · have hnil : c.file = [] := by
      rw [hsize] at h0
      exact List.length_eq_zero_iff.1 (by exact_mod_cast h0)
    have hret := processWrite_emptyFile h0
    rw [if_pos hnil]
    exact ⟨iff_of_false (fun hd => Bool.false_ne_true (hret.symm.trans hd.1))
      (fun he => Option.some_ne_none _ he.symm), fun hh => Bool.false_ne_true (hret.symm.trans hh.1)⟩
  · have hne : c.file ≠ [] := by
      intro hnil
      rw [hsize, hnil] at h0
      exact h0 rfl
    obtain ⟨hret, hidx, hgather⟩ := h.withFile hsize h0
    have hpos : 0 < (c.processWrite .fileRequest).2.writeIdx := by
      rw [hidx]
      exact List.length_pos_of_ne_nil (by simp [fileHeader, statusLine_ok])
    have hnn : (c.processWrite .fileRequest).2.gather ≠ [] := by
      rw [hgather]
      exact List.append_ne_nil_of_right_ne_nil _ hne
    have hround : rounds (c.processWrite .fileRequest).2.writeIdx
        (c.processWrite .fileRequest).2.gather.length = 1 := by
      refine rounds_one hpos ?_
      rw [hidx, hgather, List.length_append]
      omega
    obtain ⟨hiff, hno⟩ := delivers_iff hret hpos hnn out
    rw [hround, List.replicate_one, List.flatten_singleton, hgather] at hiff
    rw [if_neg hne]
    exact ⟨hiff.trans (eq_comm.trans Option.some_inj.symm), hno⟩

/-! ## From the request line to the answer -/

/-- After calls that returned `NO_REQUEST`, a call has taken `text` for the request line and come to the
code `ret`. -/
def Heard (c₀ : HttpConn) (files : Files) (text : List UInt8) (ret : HttpCode) (c : HttpConn) : Prop :=
  ∃ (earlier : List (List UInt8)) (last : List UInt8) (c₁ : HttpConn),
    Run Call c₀.init (earlier.map fun chunk => (chunk, .code .noRequest)) c₁ ∧
      (c₁.read last).1 = true ∧ (c₁.read last).2.Replies files ret c ∧ ret ≠ .noRequest ∧
      text = cstring READ_BUFFER_SIZE (c₁.read last).2.parseLine.2.readBuf (c₁.read last).2.startLine

theorem doRequest_reply {url : ℕ} (hurl : c.url = some url) (files : Files) :
    (c.doRequest files).1 = replyCode (files (c.requestPath url)) ∧
      ((c.doRequest files).1 = .fileRequest → ∃ st, files (c.requestPath url) = some st ∧
        (c.doRequest files).2.file = st.contents) := by
  unfold doRequest replyCode
  rw [hurl]
  dsimp only
  rw [show cstring FILENAME_LEN (c.setRealFile (cstring READ_BUFFER_SIZE c.readBuf url)).realFile 0 =
    c.requestPath url from rfl]
  cases files (c.requestPath url) with
  | none => exact ⟨rfl, nofun⟩
  | some st =>
    dsimp only
    split_ifs
    · exact ⟨rfl, nofun⟩
    · exact ⟨rfl, fun _ => ⟨st, rfl, rfl⟩⟩
    · exact ⟨rfl, nofun⟩

theorem Requested.requestPath (h : Requested c₀ g c) :
    ∃ p, c.url = some p ∧ c.requestPath p = docRoot ++ g.path.take URL_ROOM := by
  obtain ⟨p, hurl, hstr⟩ := h.path
  have hpath := requestPath_eq h.located.realFile p
  rw [hstr] at hpath
  exact ⟨p, hurl, hpath⟩

theorem Heard.unanswered {text : List UInt8} {ret : HttpCode} (h : Heard c₀ files text ret c) :
    Unanswered c₀ c := by
  obtain ⟨earlier, last, c₁, hrun, hread, hreply, -, -⟩ := h
  have hun := (unread_of_run hrun).read hread
  have h₁ := (unanswered_of_run hrun).read hread
  rcases hreply with hr | ⟨c₂, hr, hdo⟩
  · exact h₁.returns hun.resumed hun.checkState hr
  · obtain ⟨-, rfl⟩ := Prod.ext_iff.1 hdo
    exact (h₁.returns hun.resumed hun.checkState hr).doRequest files

/-- A request line comes to `do_request`, and any other text is a bad request. -/
theorem Heard.cases {text : List UInt8} {ret : HttpCode} (h : Heard c₀ files text ret c) :
    (∃ g c₁, text = g.line ∧ Requested c₀ g c₁ ∧ c₁.doRequest files = (ret, c)) ∨
      (∀ g : GetLine, text ≠ g.line) ∧ ret = .badRequest := by
  obtain ⟨earlier, last, c₁, hrun, hread, hreply, hne, htext⟩ := h
  have hun := (unread_of_run hrun).read hread
  rcases hreply with hr | ⟨c₂, hr, hdo⟩
  · right
    have hidx : (c₁.read last).2.readIdx ≤ READ_BUFFER_SIZE := by
      have := (read_eq hread).2
      have hr' : (c₁.read last).2.readIdx = c₁.readIdx + last.length := by
        rw [(read_eq hread).1]
        rfl
      omega
    rcases returns_requestLine hun.resumed hun.checkState hr with ⟨-, he⟩ | ⟨-, hbad, he⟩ | ⟨-, -, he⟩
    · cases he
      exact absurd rfl hne
    · cases he
      refine ⟨fun g hg => ?_, rfl⟩
      have hend : (c₁.read last).2.parseLine.2.nextLine.readBuf
          ((c₁.read last).2.startLine + (c₁.read last).2.readIdx) = NUL :=
        hun.resumed.clear.parseLine.nul _ (by rw [parseLine_readIdx]; omega)
      have hacc := (accepted_iff_getLine ⟨_, hidx, hend⟩).2 ⟨g, hg.symm.trans htext⟩
      unfold HttpConn.pendingLine at hbad
      rw [hbad] at hacc
      cases hacc
    · cases he
  · left
    have hcall : Call c₁ (last, .doRequest) c₂ := ⟨hread, hr⟩
    obtain ⟨hend, hacc, -⟩ := call_accepts hrun hcall
    have hno : (c₁.read last).2.pendingLine.1 = .noRequest := by
      by_contra hno
      exact hacc (parseRequestLine_refuses hno).1
    obtain ⟨g, hg⟩ := (accepted_iff_getLine hend).1 hno
    exact ⟨g, c₂, htext.trans hg.symm, ⟨earlier, last, c₁, hrun, hcall, hg⟩, hdo⟩

/-- The code is one of the error codes, or the file is there with its size. -/
theorem Heard.prepared {text : List UInt8} {ret : HttpCode} (h : Heard c₀ files text ret c) :
    ret ∈ errorCodes ∨ ret = .fileRequest ∧ c.fileSize = c.file.length := by
  rcases h.cases with ⟨g, c₁, -, hreq, hdo⟩ | ⟨-, rfl⟩
  · obtain ⟨p, hurl, -⟩ := hreq.requestPath
    have hret := (doRequest_reply hurl files).1
    have hfile := @doRequest_file c₁ files c
    rw [hdo] at hret hfile
    dsimp only at hret
    cases hst : files (c₁.requestPath p) with
    | none =>
      rw [hret, hst]
      exact .inl (by decide)
    | some st =>
      by_cases hf : ret = .fileRequest
      · obtain ⟨bytes, haddr, hsize, -⟩ := hfile (by rw [hf])
        refine .inr ⟨hf, ?_⟩
        rw [hsize, HttpConn.file, haddr]
        rfl
      · left
        rw [hst, replyCode] at hret
        split_ifs at hret
        · exact hret ▸ by decide
        · exact absurd hret hf
        · exact hret ▸ by decide
  · exact .inl (by decide)

/-- **The exchange.** A text that is a request line gets the code for what the file system has under the
part of its path that fits; any other text gets 400. On a socket that takes all it is given the client
then gets `reply`: the header and the file, once; or the first `m_iv[0].iov_len` bytes of the buffer with
the page, over and over, that length being what the last connection of the slot has left. Where it is 0,
`write` never returns; behind an empty file nothing is sent. -/
theorem exchange {text : List UInt8} {ret : HttpCode} (h : Heard c₀ files text ret c) :
    (∀ g : GetLine, text = g.line →
        ret = replyCode (files (docRoot ++ g.path.take URL_ROOM)) ∧
          (ret = .fileRequest → ∃ st, files (docRoot ++ g.path.take URL_ROOM) = some st ∧
            c.file = st.contents)) ∧
      ((∀ g : GetLine, text ≠ g.line) → ret = .badRequest) ∧
      (∀ out, Delivers c ret out ↔ reply c₀.iv0.len ret c.file = some out) ∧
      (Hangs c ret ↔ ret ≠ .fileRequest ∧ c₀.iv0.len = 0) := by
  have hun := h.unanswered
  have hcode := h.prepared
  refine ⟨fun g hg => ?_, fun hno => ?_, fun out => ?_, ?_⟩
  · rcases h.cases with ⟨g', c₁, hg', hreq, hdo⟩ | ⟨hno, -⟩
    · obtain ⟨earlier, last, c₂, hrun, hcall, hline⟩ := hreq
      have hreq' : Requested c₀ g c₁ := ⟨earlier, last, c₂, hrun, hcall, by rw [← hg, hg', hline]⟩
      obtain ⟨p, hurl, hpath⟩ := hreq'.requestPath
      have hreply := doRequest_reply hurl files
      rw [hdo, hpath] at hreply
      exact hreply
    · exact absurd hg (hno g)
  · rcases h.cases with ⟨g, c₁, hg, -⟩ | ⟨-, hret⟩
    · exact absurd hg (hno g)
    · exact hret
  · rcases hcode with hcode | ⟨rfl, hsize⟩
    · exact (hun.delivers_error hcode out).1
    · exact (hun.delivers_file hsize out).1
  · rcases hcode with hcode | ⟨rfl, hsize⟩
    · have hne : ret ≠ .fileRequest := by
        rintro rfl
        exact absurd hcode (by decide)
      rw [(hun.delivers_error hcode []).2]
      exact (and_iff_right hne).symm
    · exact iff_of_false (hun.delivers_file hsize []).2 fun h => h.1 rfl

/-- A file of one byte. -/
theorem exchange_root : ∃ c, Heard unused oneByte rootLine.line .fileRequest c ∧
    Delivers c .fileRequest (fileHeader false 1 ++ bytes "x") ∧ ¬ Hangs c .fileRequest := by
  obtain ⟨earlier, last, c₁, hrun, ⟨hread, hr⟩, hline⟩ := requested_root
  have hheard : Heard unused oneByte rootLine.line .fileRequest
      ((requesting rootLine).doRequest oneByte).2 :=
    ⟨earlier, last, c₁, hrun, hread, .inr ⟨_, hr, Prod.ext (by decide +kernel) rfl⟩, nofun, hline⟩
  obtain ⟨hget, -, hout, hhang⟩ := exchange hheard
  obtain ⟨st, hst, hfile⟩ := (hget rootLine rfl).2 rfl
  cases hst
  refine ⟨_, hheard, (hout _).2 ?_, fun h => absurd rfl (hhang.1 h).1⟩
  rw [hfile]
  rfl

end SocketTest.Http.HttpConn
