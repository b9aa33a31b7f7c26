import SocketTest.Http.Conn
import SocketTest.ThreadPool.WorkQueue

/-!
# The HTTP server

The main loop of `thread_pool/main.cc` and the workers in `http_conn::process`, over the table `users`,
the descriptors and `epoll`. A step is a system call or an assignment. What `process_read`,
`process_write`, `read` and `write` assign to the other fields of a slot, and what they return, is left
open; when a worker may pop is that of `WorkQueue`, with `wait` returning at any time.

1. The calls and the points of the program between them.
2. The state and the steps.
-/

namespace SocketTest.ThreadPool

open SocketTest.Lib SocketTest.Http

def MAX_FD : ℕ := 65536

/-! ## Points of the program -/

/-- What a descriptor is armed for, beside a hang-up. -/
inductive Interest
  | input
  | output
  deriving DecidableEq, Repr

/-- The branch of the main loop that an event goes to. -/
inductive Branch
  | hangUp
  | input
  | output
  deriving DecidableEq, Repr

/-- An event that `epoll_wait` has returned. -/
inductive Ready
  | listen
  | conn (fd : ℕ) (branch : Branch)
  deriving DecidableEq, Repr

def Ready.fd : Ready → Option ℕ
  | .listen => none
  | .conn fd _ => some fd

/-- A descriptor that is armed can have such an event. -/
def Interest.Allows (k : Interest) : Branch → Prop
  | .hangUp => True
  | .input => k = .input
  | .output => k = .output

/-- In `close_conn` behind its test: before `epoll_ctl` and `close` of `removefd`, and before the two
assignments. -/
inductive Closing
  | del (fd : ℕ)
  | close (fd : ℕ)
  | clear
  | count
  deriving DecidableEq, Repr

def Closing.next : Closing → Option Closing
  | .del fd => some (.close fd)
  | .close _ => some .clear
  | .clear => some .count
  | .count => none

/-- In `process`: in `process_read`, in `process_write`, in `close_conn`, before `modfd`. -/
inductive ProcessPc
  | reading
  | responding
  | closing (p : Closing)
  | rearming (ev : Interest)
  deriving DecidableEq, Repr

/-- A worker outside `process`, or in `process` of a slot. `gen` is kept for the proofs: which
connection of the slot the worker was given. -/
inductive Server.Worker
  | idle
  | busy (slot gen : ℕ) (pc : ProcessPc)
  deriving DecidableEq, Repr

/-- What `write` comes to behind `modfd`. -/
inductive AfterWrite
  | done
  | reset
  | close
  deriving DecidableEq, Repr

/-- In the branches of the main loop: behind `accept`, in `show_error`, in `init` before its
assignments and calls, in `read`, before `append`, in `write`, in `close_conn`. -/
inductive MainPc
  | accepted
  | refusing
  | assigning
  | adding
  | counting
  | resetting
  | reading
  | appending
  | writing
  | rearming (ev : Interest) (next : AfterWrite)
  | closing (p : Closing)
  deriving DecidableEq, Repr

/-- How `write` arms the descriptor: with nothing to send, on `EAGAIN`, and behind a response. -/
inductive WriteExit : Interest → AfterWrite → Prop
  | nothing : WriteExit .input .reset
  | again : WriteExit .output .done
  | lingers : WriteExit .input .done
  | ends : WriteExit .input .close

/-! ## The state -/

/-- `sockfd` and `conn` are the fields of `users[i]`, `none` standing for -1. A descriptor in `epoll`
is armed or not. `evs` are the events the main loop has still to come to, `main` is the slot and the
point it is at. `gen` counts the connections of a descriptor. -/
structure Server (W : Type*) where
  sockfd : ℕ → Option ℕ
  conn : ℕ → HttpConn
  userCount : ℤ
  opened : Finset ℕ
  epoll : ℕ → Option (Option Interest)
  workqueue : List (Option ℕ)
  worker : W → Server.Worker
  evs : List Ready
  main : Option (ℕ × MainPc)
  gen : ℕ → ℕ

namespace Server

variable {W : Type*}

/-- `addfd`; `epoll_ctl` does not add a descriptor twice. Like `modfd`, it changes only `epoll`. -/
def addfd (s : Server W) (fd : ℕ) : Server W :=
  if s.epoll fd = none then { s with epoll := Function.update s.epoll fd (some (some .input)) } else s

/-- `modfd`; `epoll_ctl` fails on -1 and on a descriptor that is not there. -/
def modfd (s : Server W) (fd : Option ℕ) (ev : Interest) : Server W :=
  match fd with
  | none => s
  | some fd =>
    if s.epoll fd = none then s else { s with epoll := Function.update s.epoll fd (some (some ev)) }

theorem addfd_eq {s : Server W} {fd : ℕ} (h : s.epoll fd = none) :
    s.addfd fd = { s with epoll := Function.update s.epoll fd (some (some .input)) } := if_pos h

theorem addfd_with (s : Server W) (fd : ℕ) : ∃ epoll, s.addfd fd = { s with epoll := epoll } := by
  rw [addfd]
  split_ifs
  · exact ⟨_, rfl⟩
  · exact ⟨s.epoll, rfl⟩

theorem modfd_with (s : Server W) (fd : Option ℕ) (ev : Interest) :
    ∃ epoll, s.modfd fd ev = { s with epoll := epoll } := by
  cases fd with
  | none => exact ⟨s.epoll, rfl⟩
  | some fd =>
    rw [modfd]
    split_ifs
    · exact ⟨s.epoll, rfl⟩
    · exact ⟨_, rfl⟩

/-- `close`, which takes a descriptor out of `epoll`, too. -/
def close (s : Server W) (fd : ℕ) : Server W :=
  { s with opened := s.opened.erase fd, epoll := Function.update s.epoll fd none }

/-- A step of `close_conn` of slot `i`. -/
def closeStep (s : Server W) (i : ℕ) : Closing → Server W
  | .del fd => { s with epoll := Function.update s.epoll fd none }
  | .close fd => s.close fd
  | .clear => { s with sockfd := Function.update s.sockfd i none }
  | .count => { s with userCount := s.userCount - 1 }

/-- `close_conn` of slot `i` up to its first call. -/
def closing (s : Server W) (i : ℕ) : Option Closing := (s.sockfd i).map Closing.del

/-- The main thread enters `close_conn`. -/
def mainCloses (s : Server W) (i : ℕ) : Server W :=
  { s with main := (s.closing i).map fun p => (i, .closing p) }

theorem closing_eq {s : Server W} {i fd : ℕ} (h : s.sockfd i = some fd) :
    s.closing i = some (.del fd) := congrArg (Option.map Closing.del) h

theorem mainCloses_eq {s : Server W} {i fd : ℕ} (h : s.sockfd i = some fd) :
    s.mainCloses i = { s with main := some (i, .closing (.del fd)) } := by
  rw [mainCloses, closing_eq h]
  rfl

/-- The table and `epoll` before the first connection. -/
structure Started (s : Server W) : Prop where
  userCount : s.userCount = 0
  opened : s.opened = ∅
  epoll : ∀ fd, s.epoll fd = none
  workqueue : s.workqueue = []
  worker : ∀ w, s.worker w = .idle
  evs : s.evs = []
  main : s.main = none

/-- The steps of the main thread and of the workers. -/
inductive Act (W : Type*)
  | poll
  | accept (fd : ℕ)
  | acceptFails
  | checkCount
  | refuse
  | assign
  | add
  | count
  | reset
  | event
  | mainSets
  | read (ret : Bool)
  | append
  | appendFails
  | write (ev : Interest) (next : AfterWrite)
  | writeFails
  | mainRearms
  | mainCloses
  | pop (w : W)
  | workerSets (w : W)
  | processRead (w : W) (ret : HttpCode)
  | processWrite (w : W) (ret : Bool)
  | workerCloses (w : W)
  | workerRearms (w : W)

variable [DecidableEq W]

/-- `listen` events lead to `accept`, which may return any descriptor that is not open; other events
to the branch of the slot. `recv` on -1 fails, so `read` returns false. -/
inductive Step (maxRequests : ℕ) : Server W → Act W → Server W → Prop
  | poll {s : Server W} {evs : List Ready} : s.main = none → s.evs = [] →
      (evs.filterMap Ready.fd).Nodup →
      (∀ fd branch, .conn fd branch ∈ evs → ∃ k, s.epoll fd = some (some k) ∧ k.Allows branch) →
      Step maxRequests s .poll { s with
        evs := evs
        epoll := fun fd => if fd ∈ evs.filterMap Ready.fd then some none else s.epoll fd }
  | accept {s : Server W} {evs : List Ready} {fd : ℕ} : s.main = none → s.evs = .listen :: evs →
      fd ∉ s.opened → Step maxRequests s (.accept fd) { s with
        evs := evs
        opened := insert fd s.opened
        gen := Function.update s.gen fd (s.gen fd + 1)
        main := some (fd, .accepted) }
  | acceptFails {s : Server W} {evs : List Ready} : s.main = none → s.evs = .listen :: evs →
      Step maxRequests s .acceptFails { s with evs := evs }
  | checkCount {s : Server W} {fd : ℕ} : s.main = some (fd, .accepted) →
      Step maxRequests s .checkCount { s with
        main := some (fd, if MAX_FD < s.userCount then .refusing else .assigning) }
  | refuse {s : Server W} {fd : ℕ} : s.main = some (fd, .refusing) →
      Step maxRequests s .refuse { s.close fd with main := none }
  | assign {s : Server W} {fd : ℕ} : s.main = some (fd, .assigning) →
      Step maxRequests s .assign { s with
        sockfd := Function.update s.sockfd fd (some fd)
        main := some (fd, .adding) }
  | add {s : Server W} {fd : ℕ} : s.main = some (fd, .adding) →
      Step maxRequests s .add { s.addfd fd with main := some (fd, .counting) }
  | count {s : Server W} {fd : ℕ} : s.main = some (fd, .counting) →
      Step maxRequests s .count { s with
        userCount := s.userCount + 1
        main := some (fd, .resetting) }
  | reset {s : Server W} {i : ℕ} : s.main = some (i, .resetting) →
      Step maxRequests s .reset { s with main := none }
  | hangUp {s : Server W} {evs : List Ready} {fd : ℕ} : s.main = none →
      s.evs = .conn fd .hangUp :: evs →
      Step maxRequests s .event ({ s with evs := evs }.mainCloses fd)
  | input {s : Server W} {evs : List Ready} {fd : ℕ} : s.main = none →
      s.evs = .conn fd .input :: evs →
      Step maxRequests s .event { s with evs := evs, main := some (fd, .reading) }
  | output {s : Server W} {evs : List Ready} {fd : ℕ} : s.main = none →
      s.evs = .conn fd .output :: evs →
      Step maxRequests s .event { s with evs := evs, main := some (fd, .writing) }
  | mainSets {s : Server W} {i : ℕ} {pc : MainPc} {c : HttpConn} : s.main = some (i, pc) →
      pc = .resetting ∨ pc = .reading ∨ pc = .writing →
      Step maxRequests s .mainSets { s with conn := Function.update s.conn i c }
  | read {s : Server W} {i : ℕ} : s.main = some (i, .reading) → s.sockfd i ≠ none →
      Step maxRequests s (.read true) { s with main := some (i, .appending) }
  | readFails {s : Server W} {i : ℕ} : s.main = some (i, .reading) →
      Step maxRequests s (.read false) (s.mainCloses i)
  | append {s : Server W} {i : ℕ} {workqueue : List (Option ℕ)} : s.main = some (i, .appending) →
      lockedPush maxRequests s.workqueue (some i) = some workqueue →
      Step maxRequests s .append { s with workqueue := workqueue, main := none }
  | appendFails {s : Server W} {i : ℕ} : s.main = some (i, .appending) →
      lockedPush maxRequests s.workqueue (some i) = none →
      Step maxRequests s .appendFails { s with main := none }
  | write {s : Server W} {i : ℕ} {ev : Interest} {next : AfterWrite} :
      s.main = some (i, .writing) → WriteExit ev next →
      Step maxRequests s (.write ev next) { s with main := some (i, .rearming ev next) }
  | writeFails {s : Server W} {i : ℕ} : s.main = some (i, .writing) →
      Step maxRequests s .writeFails (s.mainCloses i)
  | rearm {s : Server W} {i : ℕ} {ev : Interest} : s.main = some (i, .rearming ev .done) →
      Step maxRequests s .mainRearms { s.modfd (s.sockfd i) ev with main := none }
  | rearmReset {s : Server W} {i : ℕ} {ev : Interest} : s.main = some (i, .rearming ev .reset) →
      Step maxRequests s .mainRearms { s.modfd (s.sockfd i) ev with main := some (i, .resetting) }
  | rearmClose {s : Server W} {i : ℕ} {ev : Interest} : s.main = some (i, .rearming ev .close) →
      Step maxRequests s .mainRearms ((s.modfd (s.sockfd i) ev).mainCloses i)
  | mainCloses {s : Server W} {i : ℕ} {p : Closing} : s.main = some (i, .closing p) →
      Step maxRequests s .mainCloses { s.closeStep i p with
        main := p.next.map fun p => (i, .closing p) }
  | pop {s : Server W} {w : W} {i : ℕ} {workqueue : List (Option ℕ)} : s.worker w = .idle →
      lockedPop s.workqueue = some (some i, workqueue) →
      Step maxRequests s (.pop w) { s with
        workqueue := workqueue
        worker := Function.update s.worker w (.busy i (s.gen i) .reading) }
  | workerSets {s : Server W} {w : W} {i g : ℕ} {pc : ProcessPc} {c : HttpConn} :
      s.worker w = .busy i g pc → pc = .reading ∨ pc = .responding →
      Step maxRequests s (.workerSets w) { s with conn := Function.update s.conn i c }
  | processRead {s : Server W} {w : W} {i g : ℕ} {ret : HttpCode} :
      s.worker w = .busy i g .reading →
      Step maxRequests s (.processRead w ret) { s with
        worker := Function.update s.worker w
          (.busy i g (if ret = .noRequest then .rearming .input else .responding)) }
  | processWrite {s : Server W} {w : W} {i g : ℕ} : s.worker w = .busy i g .responding →
      Step maxRequests s (.processWrite w true) { s with
        worker := Function.update s.worker w (.busy i g (.rearming .output)) }
  | processWriteFails {s : Server W} {w : W} {i g : ℕ} : s.worker w = .busy i g .responding →
      Step maxRequests s (.processWrite w false) { s with
        worker := Function.update s.worker w (.busy i g
          (match s.closing i with
            | some p => .closing p
            | none => .rearming .output)) }
  | workerCloses {s : Server W} {w : W} {i g : ℕ} {p : Closing} :
      s.worker w = .busy i g (.closing p) →
      Step maxRequests s (.workerCloses w) { s.closeStep i p with
        worker := Function.update s.worker w (.busy i g
          (match p.next with
            | some p => .closing p
            | none => .rearming .output)) }
  | workerRearms {s : Server W} {w : W} {i g : ℕ} {ev : Interest} :
      s.worker w = .busy i g (.rearming ev) →
      Step maxRequests s (.workerRearms w) { s.modfd (s.sockfd i) ev with
        worker := Function.update s.worker w .idle }

end Server

end SocketTest.ThreadPool
