import SocketTest.Http.Parse

/-!
# Answering a request: `do_request`, `process_write`, `write`

The path to the file system and the response, from `thread_pool/http_conn.cc`. The response lies in
`m_write_buf` and in the mapped file; `m_iv` lists the segments that `writev` sends.
-/

namespace SocketTest.Http

open SocketTest.Lib

def ok200Title : List UInt8 := bytes "OK"
def error400Title : List UInt8 := bytes "Bad Request"
def error400Form : List UInt8 :=
  bytes "Your request has bad syntax or is inherenly impossible to statisfy.\n"
def error403Title : List UInt8 := bytes "Forbidden"
def error403Form : List UInt8 := bytes "You do not have permission to get file from this server.\n"
def error404Title : List UInt8 := bytes "Not Found"
def error404Form : List UInt8 := bytes "The requested file was not found on this server.\n"
def error500Title : List UInt8 := bytes "Internal Error"
def error500Form : List UInt8 := bytes "There was an unusual problem serving the requested file.\n"
def okString : List UInt8 := bytes "<html><body></body></html>"

def docRoot : List UInt8 := bytes "/var/www/html"

/-- What `stat` tells of a file, and its bytes. -/
structure FileStat where
  /-- `st_mode & S_IROTH` -/
  othersRead : Bool
  /-- `S_ISDIR(st_mode)` -/
  isDir : Bool
  contents : List UInt8
  deriving DecidableEq, Repr

/-- The file system: what `stat`, `open` and `mmap` find under a path. -/
abbrev Files := List UInt8 → Option FileStat

namespace HttpConn

/-! ## The file -/

/-- `strcpy(m_real_file, doc_root)` and the `strncpy` behind it. -/
def setRealFile (c : HttpConn) (url : List UInt8) : HttpConn :=
  let len := docRoot.length
  let root := strncpy c.realFile 0 (len + 1) docRoot
  { c with realFile := strncpy root len (FILENAME_LEN - len - 1) url }

/-- `do_request`. The mapping of an empty file fails; `m_file_address` is not null then, and there
are no bytes behind it. -/
def doRequest (c : HttpConn) (files : Files) : HttpCode × HttpConn :=
  match c.url with
  -- `strncpy` from the null pointer
  | none => (.internalError, { c with faults := c.faults ++ [.null] })
  | some url =>
    let c₁ := c.setRealFile (cstring READ_BUFFER_SIZE c.readBuf url)
    match files (cstring FILENAME_LEN c₁.realFile 0) with
    | none => (.noResource, c₁)
    | some st =>
      let c₂ : HttpConn := { c₁ with fileSize := st.contents.length }
      if ¬ st.othersRead then (.forbiddenRequest, c₂)
      else if st.isDir then (.badRequest, c₂)
      else (.fileRequest, { c₂ with fileAddress := some st.contents })

def unmap (c : HttpConn) : HttpConn := { c with fileAddress := none }

/-! ## The response -/

/-- `add_response`, with the formatted text. What does not fit is cut and not counted. -/
def addResponse (c : HttpConn) (text : List UInt8) : Bool × HttpConn :=
  if WRITE_BUFFER_SIZE ≤ c.writeIdx then (false, c)
  else
    let size := WRITE_BUFFER_SIZE - 1 - c.writeIdx
    let c₁ : HttpConn := { c with writeBuf := vsnprintf c.writeBuf c.writeIdx size text }
    if size ≤ text.length then (false, c₁)
    else (true, { c₁ with writeIdx := c.writeIdx + text.length })

/-- `"%s %d %s\r\n"`. -/
def statusLine (status : ℕ) (title : List UInt8) : List UInt8 :=
  bytes "HTTP/1.1" ++ [SP] ++ decimal status ++ [SP] ++ title ++ CRLF

/-- `"Content-Length: %d\r\n"`. -/
def contentLengthLine (n : ℤ) : List UInt8 := bytes "Content-Length: " ++ decimal n ++ CRLF

/-- `"Connection: %s\r\n"`. -/
def connectionLine (linger : Bool) : List UInt8 :=
  bytes "Connection: " ++ (if linger then bytes "keep-alive" else bytes "close") ++ CRLF

def addStatusLine (c : HttpConn) (status : ℕ) (title : List UInt8) : Bool × HttpConn :=
  c.addResponse (statusLine status title)

def addContentLength (c : HttpConn) (n : ℤ) : Bool × HttpConn := c.addResponse (contentLengthLine n)

def addLinger (c : HttpConn) : Bool × HttpConn := c.addResponse (connectionLine c.linger)

def addBlankLine (c : HttpConn) : Bool × HttpConn := c.addResponse CRLF

def addContent (c : HttpConn) (content : List UInt8) : Bool × HttpConn := c.addResponse content

/-- `add_headers`. It has no `return`, and no caller looks at its result. -/
def addHeaders (c : HttpConn) (n : ℤ) : HttpConn :=
  let c₁ := (c.addContentLength n).2
  let c₂ := c₁.addLinger.2
  c₂.addBlankLine.2

/-- A case of `process_write` that builds an error page, and the end of the function. It sets
`m_iv[0].iov_base` and `m_iv[1].iov_len`. -/
def writeError (c : HttpConn) (status : ℕ) (title form : List UInt8) : Bool × HttpConn :=
  let c₁ := (c.addStatusLine status title).2
  let c₂ := c₁.addHeaders form.length
  let r := c₂.addContent form
  if r.1 then
    (true, { r.2 with
      iv0 := { r.2.iv0 with base := .writeBuf }
      iv1 := { r.2.iv1 with len := r.2.writeIdx }
      ivCount := 1 })
  else (false, r.2)

/-- `process_write`. The case of an empty file runs into `default`. -/
def processWrite (c : HttpConn) : HttpCode → Bool × HttpConn
  | .internalError => c.writeError 500 error500Title error500Form
  | .badRequest => c.writeError 400 error400Title error400Form
  | .noResource => c.writeError 404 error404Title error404Form
  | .forbiddenRequest => c.writeError 403 error403Title error403Form
  | .fileRequest =>
    let c₁ := (c.addStatusLine 200 ok200Title).2
    if c₁.fileSize ≠ 0 then
      let c₂ := c₁.addHeaders (toInt32 c₁.fileSize)
      (true, { c₂ with
        iv0 := ⟨.writeBuf, c₂.writeIdx⟩
        iv1 := ⟨.file, c₂.fileSize.toNat⟩
        ivCount := 2 })
    else
      let c₂ := c₁.addHeaders okString.length
      (false, (c₂.addContent okString).2)
  | _ => (false, c)

/-! ## Sending -/

/-- The bytes of a segment. -/
def segment (c : HttpConn) (iv : Iovec) : List UInt8 :=
  match iv.base with
  | .writeBuf => contents c.writeBuf 0 iv.len
  | .file => (c.fileAddress.getD []).take iv.len
  | .other _ => []

/-- The bytes of `m_iv[0 .. m_iv_count)`. -/
def gather (c : HttpConn) : List UInt8 := ([c.iv0, c.iv1].take c.ivCount).flatMap c.segment

end HttpConn

/-- What `writev` returns: a count, or -1 with `EAGAIN` or another error. -/
inductive Writev
  | sent (n : ℕ)
  | again
  | error
  deriving DecidableEq, Repr

/-- Where the answer is: waiting for `EPOLLOUT`, in the loop of `write` with its two counters, or
behind `write`, which has returned after the response or after an error. -/
inductive Phase
  | waiting
  | loop (bytesToSend bytesHaveSend : ℤ)
  | finished (result : Bool)
  | failed
  deriving DecidableEq, Repr

namespace HttpConn

/-- `write` up to its loop. -/
def writeStart (c : HttpConn) : Phase × HttpConn :=
  if c.writeIdx = 0 then (.finished true, c.init) else (.loop c.writeIdx 0, c)

/-- A round of the loop of `write` when `writev` has returned. -/
def writeRound (c : HttpConn) (bytesToSend bytesHaveSend : ℤ) : Writev → Phase × HttpConn
  | .again => (.waiting, c)
  | .error => (.failed, c.unmap)
  | .sent temp =>
    let bytesToSend := bytesToSend - temp
    let bytesHaveSend := bytesHaveSend + temp
    if bytesToSend ≤ bytesHaveSend then
      (.finished c.linger, if c.linger then c.unmap.init else c.unmap)
    else (.loop bytesToSend bytesHaveSend, c)

end HttpConn

end SocketTest.Http
