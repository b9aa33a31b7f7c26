import SocketTest.Lib.CString
import SocketTest.Lib.Memory

/-!
# `http_conn`

The state of a connection, `thread_pool/http_conn.h`. Pointers into `m_read_buf` are positions;
`m_iv[i].iov_base` says which of the two segments it points to. A write to a buffer outside its bounds
is recorded in `faults`. A string that fills `m_read_buf` to its end is read up to the byte behind it, the
first of `m_read_idx`; that is 2048 then, and the byte a NUL.
-/

namespace SocketTest.Http

open SocketTest.Lib

def READ_BUFFER_SIZE : ℕ := 2048
def WRITE_BUFFER_SIZE : ℕ := 1024
def FILENAME_LEN : ℕ := 200

inductive Method
  | get | post | head | put | delete | trace | options | connect | patch
  deriving DecidableEq, Repr

inductive CheckState
  | requestLine | header | content
  deriving DecidableEq, Repr

inductive HttpCode
  | noRequest | getRequest | badRequest | noResource | forbiddenRequest | fileRequest
  | internalError | closedConnection
  deriving DecidableEq, Repr

inductive LineStatus
  | ok | bad | opened
  deriving DecidableEq, Repr

/-- What an `iov_base` points to. -/
inductive IovBase
  | writeBuf
  | file
  | other (p : Ptr)
  deriving DecidableEq, Repr

structure Iovec where
  base : IovBase
  len : ℕ
  deriving DecidableEq, Repr

structure HttpConn where
  readBuf : Buf
  readIdx : ℕ
  checkedIdx : ℕ
  startLine : ℕ
  writeBuf : Buf
  writeIdx : ℕ
  checkState : CheckState
  method : Method
  realFile : Buf
  url : Option ℕ
  version : Option ℕ
  host : Option ℕ
  contentLength : ℤ
  linger : Bool
  /-- the mapped file, when there is one -/
  fileAddress : Option (List UInt8)
  /-- `m_file_stat.st_size` -/
  fileSize : ℤ
  iv0 : Iovec
  iv1 : Iovec
  ivCount : ℕ
  faults : List Fault

namespace HttpConn

/-- `init()`: what it does not mention stays as the connection slot has it. -/
def init (c : HttpConn) : HttpConn :=
  { c with
    checkState := .requestLine
    linger := false
    method := .get
    url := none
    version := none
    contentLength := 0
    host := none
    startLine := 0
    checkedIdx := 0
    readIdx := 0
    writeIdx := 0
    readBuf := fun _ => NUL
    writeBuf := fun _ => NUL
    realFile := fun _ => NUL }

/-- A slot of the connection table that no connection has used yet. -/
def unused : HttpConn where
  readBuf := fun _ => NUL
  readIdx := 0
  checkedIdx := 0
  startLine := 0
  writeBuf := fun _ => NUL
  writeIdx := 0
  checkState := .requestLine
  method := .get
  realFile := fun _ => NUL
  url := none
  version := none
  host := none
  contentLength := 0
  linger := false
  fileAddress := none
  fileSize := 0
  iv0 := ⟨.other 0, 0⟩
  iv1 := ⟨.other 0, 0⟩
  ivCount := 0
  faults := []

/-- Bytes that `recv` appends to `m_read_buf`. -/
def receive (c : HttpConn) (chunk : List UInt8) : HttpConn :=
  { c with
    readBuf := fun i =>
      if c.readIdx ≤ i ∧ i < c.readIdx + chunk.length then chunk.getD (i - c.readIdx) NUL
      else c.readBuf i
    readIdx := c.readIdx + chunk.length }

/-- `m_read_buf[i] = b`. -/
def put (c : HttpConn) (i : ℕ) (b : UInt8) : HttpConn :=
  { c with readBuf := Function.update c.readBuf i b }

/-- `*(m_read_buf + i) = b` for a computed offset, which may lie outside the buffer. -/
def putAt (c : HttpConn) (i : ℤ) (b : UInt8) : HttpConn :=
  if 0 ≤ i ∧ i < READ_BUFFER_SIZE then c.put i.toNat b
  else { c with faults := c.faults ++ [.outOfBounds i] }

end HttpConn

end SocketTest.Http
