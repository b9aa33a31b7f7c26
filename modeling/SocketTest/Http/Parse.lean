import SocketTest.Http.Conn
import SocketTest.Lib.Loop

/-!
# Reading a request: `process_read`

`parse_line`, `parse_request_line`, `parse_headers`, `parse_content` and the loop over them, from
`thread_pool/http_conn.cc`. The loop is a state machine that is resumed with every chunk of input;
`processRead` takes a bound on its rounds and answers `none` when the bound is reached.
-/

namespace SocketTest.Http

open SocketTest.Lib

/-- How a call of `process_read` ends: with a code of its own, or in `do_request`. -/
inductive Outcome
  | code (code : HttpCode)
  | doRequest
  deriving DecidableEq, Repr

def blanks : List UInt8 := [SP, TAB]

namespace HttpConn

/-- The loop of `parse_line`, `n` being `m_read_idx - m_checked_idx`. -/
def parseLineLoop : ℕ → HttpConn → LineStatus × HttpConn
  | 0, c => (.opened, c)
  | n + 1, c =>
    let temp := c.readBuf c.checkedIdx
    if temp = CR then
      if c.checkedIdx + 1 = c.readIdx then (.opened, c)
      else if c.readBuf (c.checkedIdx + 1) = LF then
        (.ok, { (c.put c.checkedIdx NUL).put (c.checkedIdx + 1) NUL with
          checkedIdx := c.checkedIdx + 2 })
      else parseLineLoop n { c with checkedIdx := c.checkedIdx + 1 }
    else if temp = LF then
      if 1 < c.checkedIdx ∧ c.readBuf (c.checkedIdx - 1) = CR then
        (.ok, { (c.put (c.checkedIdx - 1) NUL).put c.checkedIdx NUL with
          checkedIdx := c.checkedIdx + 1 })
      else (.bad, c)
    else parseLineLoop n { c with checkedIdx := c.checkedIdx + 1 }

def parseLine (c : HttpConn) : LineStatus × HttpConn :=
  parseLineLoop (c.readIdx - c.checkedIdx) c

/-- `parse_request_line`. Every assignment to `m_url` and `m_version` stays, also on the way to
`BAD_REQUEST`. -/
def parseRequestLine (c : HttpConn) (text : ℕ) : HttpCode × HttpConn :=
  match strpbrk READ_BUFFER_SIZE c.readBuf text blanks with
  | none => (.badRequest, { c with url := none })
  | some u =>
    let c₁ : HttpConn := { c.put u NUL with url := some (u + 1) }
    if strcaseeq c₁.readBuf text (bytes "GET") then
      let url := strspn READ_BUFFER_SIZE c₁.readBuf (u + 1) blanks
      let c₂ : HttpConn := { c₁ with method := .get, url := some url }
      match strpbrk READ_BUFFER_SIZE c₂.readBuf url blanks with
      | none => (.badRequest, { c₂ with version := none })
      | some v =>
        let c₃ := c₂.put v NUL
        let version := strspn READ_BUFFER_SIZE c₃.readBuf (v + 1) blanks
        let c₄ : HttpConn := { c₃ with version := some version }
        if strcaseeq c₄.readBuf version (bytes "HTTP/1.1") then
          let url' : Option ℕ :=
            if strncaseeq c₄.readBuf url (bytes "http://") then
              strchr READ_BUFFER_SIZE c₄.readBuf (url + 7) 47
            else some url
          let c₅ : HttpConn := { c₄ with url := url' }
          match url' with
          | none => (.badRequest, c₅)
          | some w =>
            if c₅.readBuf w = 47 then (.noRequest, { c₅ with checkState := .header })
            else (.badRequest, c₅)
        else (.badRequest, c₄)
    else (.badRequest, c₁)

def parseHeaders (c : HttpConn) (text : ℕ) : HttpCode × HttpConn :=
  if c.readBuf text = NUL then
    if c.contentLength ≠ 0 then (.noRequest, { c with checkState := .content })
    else (.getRequest, c)
  else if strncaseeq c.readBuf text (bytes "Connection:") then
    (.noRequest, { c with linger := true })
  else if strncaseeq c.readBuf text (bytes "Content-Length:") then
    (.noRequest, { c with contentLength := toInt32 (atol READ_BUFFER_SIZE c.readBuf
      (strspn READ_BUFFER_SIZE c.readBuf (text + 15) blanks)) })
  else if strncaseeq c.readBuf text (bytes "Host:") then
    (.noRequest, { c with host := some (strspn READ_BUFFER_SIZE c.readBuf (text + 5) blanks) })
  else (.noRequest, c)

/-- `m_read_idx >= (m_content_length + m_checked_idx)`, with the sum of two `int`s. -/
def bodyRead (c : HttpConn) : Bool := toInt32 (c.contentLength + c.checkedIdx) ≤ c.readIdx

def parseContent (c : HttpConn) (text : ℕ) : HttpCode × HttpConn :=
  if c.bodyRead then (.getRequest, c.putAt (text + c.contentLength) NUL) else (.noRequest, c)

/-- The condition of the loop. Its second part compares `line_status == parse_line()`, a truth value,
with `LINE_OK`, which is 0: it holds when the two differ. -/
def loopCond (c : HttpConn) (lineStatus : LineStatus) : Bool × HttpConn :=
  if c.checkState = .content ∧ lineStatus = .ok then (true, c)
  else (decide (lineStatus ≠ c.parseLine.1), c.parseLine.2)

/-- `text = get_line()` takes what starts at `m_start_line`; then `m_start_line = m_checked_idx`. -/
def nextLine (c : HttpConn) : HttpConn := { c with startLine := c.checkedIdx }

/-- One round of the `while` loop of `process_read`, from the connection and `line_status`. -/
def processRound (s : HttpConn × LineStatus) : (Outcome × HttpConn) ⊕ (HttpConn × LineStatus) :=
  let cond := s.1.loopCond s.2
  if cond.1 then
    let text := cond.2.startLine
    let c := cond.2.nextLine
    match c.checkState with
    | .requestLine =>
      let r := c.parseRequestLine text
      if r.1 = .badRequest then .inl (.code .badRequest, r.2) else .inr (r.2, s.2)
    | .header =>
      let r := c.parseHeaders text
      if r.1 = .badRequest then .inl (.code .badRequest, r.2)
      else if r.1 = .getRequest then .inl (.doRequest, r.2)
      else .inr (r.2, s.2)
    | .content =>
      let r := c.parseContent text
      if r.1 = .getRequest then .inl (.doRequest, r.2) else .inr (r.2, .opened)
  else .inl (.code .noRequest, cond.2)

/-- `process_read`, for at most `fuel` rounds. -/
def processRead (fuel : ℕ) (c : HttpConn) : Option (Outcome × HttpConn) :=
  Loop.iterate processRound fuel (c, .ok)

/-- `process_read` returns. -/
def Returns (c : HttpConn) (o : Outcome) (c' : HttpConn) : Prop :=
  ∃ fuel, c.processRead fuel = some (o, c')

/-- `read`, when `chunk` is what the socket gives until `recv` would block. Once the buffer is full, the
next `recv` asks for no bytes: it gets 0 when the socket has more, and would block when it has not. -/
def read (c : HttpConn) (chunk : List UInt8) : Bool × HttpConn :=
  if READ_BUFFER_SIZE ≤ c.readIdx then (false, c)
  else
    let room := READ_BUFFER_SIZE - c.readIdx
    (decide (chunk.length ≤ room), c.receive (chunk.take room))

/-- The main thread reads a chunk and a worker calls `process_read`, which returns. -/
def Call (c : HttpConn) (a : List UInt8 × Outcome) (c' : HttpConn) : Prop :=
  (c.read a.1).1 = true ∧ (c.read a.1).2.Returns a.2 c'

end HttpConn

end SocketTest.Http
