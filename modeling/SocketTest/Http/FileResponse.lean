import SocketTest.Http.Response

/-!
# File responses

`do_request` has found a file, and `process_write` prepares the header and the two segments. The size
goes through an `int` into the header and as it is into `m_iv`, and the case of an empty file runs
into `default`: `file_framed_iff` says for which sizes the response is framed correctly.
-/

namespace SocketTest.Http.HttpConn

open SocketTest.Lib

variable {c₀ c : HttpConn} {files : Files}

/-- The bytes of the mapped file. -/
def file (c : HttpConn) : List UInt8 := c.fileAddress.getD []

/-- Behind `init` and calls of `process_read`, `do_request` has found a file. -/
def Found (c₀ : HttpConn) (files : Files) (c : HttpConn) : Prop :=
  ∃ ls c₁, Run Call c₀.init ls c₁ ∧ c₁.doRequest files = (.fileRequest, c)

/-- One response 200 with a body as long as its `Content-Length` says. -/
def Framed (linger : Bool) (s : List UInt8) : Prop :=
  ∃ number body, s = statusLine 200 ok200Title ++ (bytes "Content-Length: " ++ number ++ CRLF) ++
    connectionLine linger ++ CRLF ++ body ∧ readDecimal number = some body.length

theorem doRequest_file {c' : HttpConn} (h : c.doRequest files = (.fileRequest, c')) :
    ∃ bytes, c'.fileAddress = some bytes ∧ c'.fileSize = bytes.length ∧ c'.writeIdx = c.writeIdx := by
  unfold doRequest at h
  split at h
  · cases h
  · dsimp only at h
    split at h
    · cases h
    · split_ifs at h <;> cases h
      exact ⟨_, rfl, rfl, rfl⟩

theorem Found.file_length (h : Found c₀ files c) : c.fileSize = c.file.length := by
  obtain ⟨ls, c₁, -, hdo⟩ := h
  obtain ⟨bytes, haddr, hsize, -⟩ := doRequest_file hdo
  rw [hsize, file, haddr]
  rfl

theorem Found.writeIdx (h : Found c₀ files c) : c.writeIdx = 0 := by
  obtain ⟨ls, c₁, hrun, hdo⟩ := h
  obtain ⟨-, -, -, hidx⟩ := doRequest_file hdo
  rw [hidx, writeIdx_of_run hrun]

/-! ## The header fits -/

theorem statusLine_ok : statusLine 200 ok200Title = 72 :: bytes "TTP/1.1 200 OK\r\n" := by decide

theorem toInt32_natAbs (z : ℤ) : (toInt32 z).natAbs < 10 ^ 10 := by
  have := toInt32_range z
  omega

theorem fileHeader_length (linger : Bool) (size : ℤ) :
    (fileHeader linger size).length < WRITE_BUFFER_SIZE - 1 := by
  have hn := decimal_length (toInt32_natAbs size)
  have hlinger : (connectionLine linger).length ≤ 24 := by cases linger <;> decide
  have hname : (bytes "Content-Length: ").length = 16 := by decide
  have hstatus : (bytes "TTP/1.1 200 OK\r\n").length = 16 := by decide
  rw [fileHeader, statusLine_ok, headerLines, contentLengthLine, WRITE_BUFFER_SIZE]
  simp only [List.length_append, List.length_cons, hname, hstatus, CRLF, List.length_nil]
  omega

/-! ## `process_write` -/

/-- An empty file ends in `default`. -/
theorem Found.processWrite_empty (h : Found c₀ files c) (h0 : c.fileSize = 0) :
    (c.processWrite .fileRequest).1 = false := by
  have hstatus : (c.addStatusLine 200 ok200Title).2.fileSize = c.fileSize :=
    (addResponse_spec (by rw [h.writeIdx, statusLine_ok]; decide)).2.fileSize
  rw [processWrite]
  dsimp only
  rw [if_neg (by rw [hstatus]; exact not_not.2 h0)]

/-- `d` has the header and the file of `c` in its two segments. -/
structure FileReady (c d : HttpConn) : Prop where
  processWrite : c.processWrite .fileRequest = (true, d)
  response : d.response = fileHeader c.linger c.fileSize
  file : d.file = c.file
  gather : d.gather = d.response ++ d.file

theorem Found.processWrite_file (h : Found c₀ files c) (h0 : c.fileSize ≠ 0) :
    ∃ d, FileReady c d := by
  have hlen := fileHeader_length c.linger c.fileSize
  obtain ⟨d, hd, he⟩ :=
    HttpConn.processWrite_file h0 (by rw [h.writeIdx, Nat.zero_add]; exact hlen)
  have hfile : d.file = c.file := by rw [HttpConn.file, hd.fileAddress, HttpConn.file]
  have hsize : d.fileSize.toNat = d.file.length := by
    rw [hd.fileSize, h.file_length, hfile]
    rfl
  refine ⟨_, he, ?_, hfile, ?_⟩
  · have hempty : c.response = [] := by rw [HttpConn.response, h.writeIdx]; rfl
    have hresp := hd.response
    rwa [hempty, List.nil_append] at hresp
  · simp only [HttpConn.gather, segment, List.take, List.flatMap_cons, List.flatMap_nil,
      List.append_nil, hsize]
    show contents d.writeBuf 0 d.writeIdx ++ d.file.take d.file.length = _
    rw [List.take_length]
    rfl

/-! ## Framing -/

theorem CR_notMem_decimal (z : ℤ) : CR ∉ decimal z := by
  intro h
  rcases decimal_bytes h with h | ⟨h, -⟩
  · exact absurd h (by decide)
  · exact absurd h (by decide)

/-- The header of a file is framed exactly when its `Content-Length` reads as the file's length. -/
theorem framed_fileHeader (linger : Bool) (size : ℤ) (file : List UInt8) :
    Framed linger (fileHeader linger size ++ file) ↔
      readDecimal (decimal (toInt32 size)) = some file.length := by
  constructor
  · rintro ⟨number, body, he, hnum⟩
    have hdigits := (readDecimal_ne_none hnum).2
    have hCR : CR ∉ number := fun h => absurd (hdigits CR h).1 (by decide)
    simp only [fileHeader, headerLines, contentLengthLine, CRLF, List.append_assoc,
      List.append_cancel_left_eq, List.cons_append, List.nil_append] at he
    obtain ⟨rfl, hrest⟩ := append_cons_inj (CR_notMem_decimal _) hCR he
    simp only [List.cons.injEq, true_and, List.append_cancel_left_eq] at hrest
    rw [hnum, hrest]
  · intro hnum
    refine ⟨_, file, ?_, hnum⟩
    simp only [fileHeader, headerLines, contentLengthLine, List.append_assoc]

/-- A length of a file is written as it is exactly below `2 ^ 31`. -/
theorem readDecimal_toInt32 (n : ℕ) :
    readDecimal (decimal (toInt32 n)) = some n ↔ (n : ℤ) < 2 ^ 31 := by
  have hself := @toInt32_eq_self n
  constructor
  · intro h
    unfold decimal at h
    split_ifs at h with hneg
    · exact absurd ((readDecimal_ne_none h).2 45 List.mem_cons_self).1 (by decide)
    · rw [readDecimal_decimalDigits] at h
      have := Option.some.inj h
      omega
  · intro hlt
    rw [hself.2 (by omega), decimal, if_neg (by omega), readDecimal_decimalDigits,
      Int.natAbs_natCast]

/-- `process_write` frames a file response correctly exactly when the file is not empty and its size
fits an `int`. -/
theorem file_framed_iff (h : Found c₀ files c) :
    (c.processWrite .fileRequest).1 = true ∧
        Framed c.linger (c.processWrite .fileRequest).2.gather ↔
      0 < c.fileSize ∧ c.fileSize < 2 ^ 31 := by
  have hlen := h.file_length
  by_cases h0 : c.fileSize = 0
  · apply iff_of_false
    · rw [h.processWrite_empty h0]
      simp
    · omega
  · obtain ⟨d, hd⟩ := h.processWrite_file h0
    rw [hd.processWrite, and_iff_right rfl, hd.gather, hd.response, hd.file, framed_fileHeader, hlen,
      readDecimal_toInt32]
    omega

/-- A file system with one byte under every path. -/
def oneByte : Files := fun _ => some ⟨true, false, bytes "x"⟩

/-- A file system with an empty file under every path. -/
def emptyFile : Files := fun _ => some ⟨true, false, []⟩

/-- A slot in `do_request`. -/
def dispatched : HttpConn := (unused.init.receive (bytes "GET / HTTP/1.1")).pendingLine.2

theorem dispatched_run : Run Call unused.init [(bytes "GET / HTTP/1.1", .doRequest)] dispatched :=
  run_pendingLine (by decide) ⟨by decide, by decide⟩ (by decide)

theorem file_framed_iff_oneByte :
    ((dispatched.doRequest oneByte).2.processWrite .fileRequest).1 = true ∧
        Framed false ((dispatched.doRequest oneByte).2.processWrite .fileRequest).2.gather ↔
      0 < (dispatched.doRequest oneByte).2.fileSize ∧
        (dispatched.doRequest oneByte).2.fileSize < 2 ^ 31 :=
  file_framed_iff ⟨_, _, dispatched_run, Prod.ext (by decide +kernel) rfl⟩

/-- The request for an empty file gets no response. -/
theorem file_unframed : ¬ ∀ (c₀ : HttpConn) (files : Files) (c : HttpConn), Found c₀ files c →
    (c.processWrite .fileRequest).1 = true ∧
      Framed c.linger (c.processWrite .fileRequest).2.gather := by
  intro hall
  have hfound : Found unused emptyFile (dispatched.doRequest emptyFile).2 :=
    ⟨_, _, dispatched_run, Prod.ext (by decide +kernel) rfl⟩
  have hret := (hall _ _ _ hfound).1
  rw [hfound.processWrite_empty (by decide +kernel)] at hret
  cases hret

end SocketTest.Http.HttpConn
