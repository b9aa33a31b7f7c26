import SocketTest.Lib.CInt
import SocketTest.Timer.MinHeapRuns

/-!
# The server that closes idle clients

The model of `timer/inactive_timer.cc`: the handlers of the loop in `main` as functions on the
server's state, and the kernel's part of it, the open client descriptors and the clock. `users` is
the array of client records, by descriptor. `recv` on a client and `accept` are given by what the
system calls return, every reading of `time(NULL)` by its value.
-/

namespace SocketTest.Timer

open SocketTest.Lib

def DEFAULT_TIME : ℤ := 5
def TIMESLOT : ℤ := 1

/-- The address of `cb_func`. -/
def CB_FUNC : Ptr := 1

/-- The fields of `client_data` that decide anything. -/
structure ClientData where
  sockfd : ℕ
  timer : Ptr

structure Server where
  heap : TimeHeap
  users : ℕ → ClientData
  timeout : Bool
  stopServer : Bool
  /-- the argument of the last `alarm` -/
  alarm : ℤ
  /-- the client descriptors open in the kernel -/
  isOpen : ℕ → Bool
  /-- the last reading of the clock -/
  clock : ℤ
  /-- the loop has ended -/
  halted : Bool

/-- The bytes read from the signal pipe. -/
inductive Signal
  | alrm
  | term
  | other

/-- What one pass of the loop body deals with. `batchEnd` is the code behind the `for` loop, with
the clock as `tick` reads it and as `timer_handler` reads it after. -/
inductive Event
  | accept (connfd : ℕ) (timer : Ptr) (index : ℕ) (now : ℤ)
  | client (sockfd : ℕ) (ret : ℤ) (again : Bool) (now : ℤ)
  | signals (sigs : List Signal)
  | other
  | batchEnd (now now' : ℤ)
  | epollFailure

namespace Server

/-- `main` up to the loop. -/
def init (mem : Mem HeapTimer) (users : ℕ → ClientData) (clock : ℤ) : Server where
  heap := .ofCapacity mem 20
  users := users
  timeout := false
  stopServer := false
  alarm := TIMESLOT
  isOpen _ := false
  clock := clock
  halted := false

/-- `cb_func(&users[u])`: the descriptor of the record is closed. -/
def cbFunc (s : Server) (u : ℕ) : Server :=
  { s with isOpen := Function.update s.isOpen (s.users u).sockfd false }

/-- A call through a callback pointer. -/
def invoke (s : Server) (call : Call) : Server :=
  if call.func = CB_FUNC then s.cbFunc call.arg else s

/-- `accept` returned `connfd`: a new timer for the client. -/
def onAccept (s : Server) (connfd : ℕ) (timer : Ptr) (index : ℕ) (now : ℤ) : Server :=
  { s with
    heap := HeapOp.exec s.heap (.add timer ⟨now + 3 * DEFAULT_TIME, CB_FUNC, connfd, index⟩)
    users := Function.update s.users connfd ⟨connfd, timer⟩
    isOpen := Function.update s.isOpen connfd true
    clock := now }

/-- `cb_func(&users[sockfd]); if(timer) h_timer.del_timer(timer)`. -/
def closeClient (s : Server) (sockfd : ℕ) : Server :=
  let s₁ := s.cbFunc sockfd
  if (s.users sockfd).timer ≠ 0 then { s₁ with heap := s₁.heap.delTimer (s.users sockfd).timer }
  else s₁

/-- `recv` on a client returned `ret`; `again` says that `errno` is `EAGAIN`. -/
def onClient (s : Server) (sockfd : ℕ) (ret : ℤ) (again : Bool) (now : ℤ) : Server :=
  if ret < 0 then if again then s else s.closeClient sockfd
  else if ret = 0 then s.closeClient sockfd
  else if (s.users sockfd).timer ≠ 0 then
    { s with
      heap := s.heap.refresh (s.users sockfd).timer (now + 3 * DEFAULT_TIME)
      clock := now }
  else s

def onSignal (s : Server) : Signal → Server
  | .alrm => { s with timeout := true }
  | .term => { s with stopServer := true }
  | .other => s

/-- `timer_handler`: the tick with its callbacks, and the next alarm. `timeslot` is an `int`, the
argument of `alarm` an `unsigned`. -/
def timerHandler (s : Server) (now now' : ℤ) : Server :=
  let s₁ : Server := { s with heap := (s.heap.tick now).1, clock := now }
  let s₂ := (s.heap.tick now).2.foldl invoke s₁
  if s₂.heap.empty then { s₂ with alarm := 1 }
  else
    let timeslot := toInt32 (s₂.heap.expire s₂.heap.top - now')
    { s₂ with alarm := toUInt32 timeslot, clock := now' }

theorem foldl_invoke_heap {s : Server} (calls : List Call) : (calls.foldl invoke s).heap = s.heap := by
  induction calls generalizing s with
  | nil => rfl
  | cons c calls ih =>
    rw [List.foldl_cons, ih]
    unfold invoke cbFunc
    split_ifs <;> rfl

theorem timerHandler_heap (s : Server) (now now' : ℤ) :
    (s.timerHandler now now').heap = (s.heap.tick now).1 := by
  unfold timerHandler
  dsimp only
  split_ifs <;> exact foldl_invoke_heap _

/-- The code behind the `for` loop: the timer handler, then the loop's condition. -/
def onBatchEnd (s : Server) (now now' : ℤ) : Server :=
  let s₁ := if s.timeout then { s.timerHandler now now' with timeout := false } else s
  { s₁ with halted := s₁.stopServer }

def handle (s : Server) : Event → Server
  | .accept connfd timer index now => s.onAccept connfd timer index now
  | .client sockfd ret again now => s.onClient sockfd ret again now
  | .signals sigs => sigs.foldl onSignal s
  | .other => s
  | .batchEnd now now' => s.onBatchEnd now now'
  | .epollFailure => { s with halted := true }

end Server

/-- What the kernel can report: `accept` returns a descriptor that is not open and `new` a free
address, `recv` is called on an open client, the clock does not go back. -/
def Event.Allowed (s : Server) : Event → Prop
  | accept connfd timer _ now =>
    (s.isOpen connfd = false ∧ timer ≠ 0 ∧ s.heap.mem.live timer = false) ∧ s.clock ≤ now
  | client sockfd _ _ now => s.isOpen sockfd = true ∧ s.clock ≤ now
  | batchEnd now now' => s.clock ≤ now ∧ now ≤ now'
  | _ => True

instance Event.decidableAllowed (s : Server) (e : Event) : Decidable (e.Allowed s) := by
  cases e <;> unfold Event.Allowed <;> infer_instance

def ServerStep (s : Server) (e : Event) (s' : Server) : Prop :=
  (s.halted = false ∧ e.Allowed s) ∧ s' = s.handle e

end SocketTest.Timer
