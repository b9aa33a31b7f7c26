import SocketTest.ChatServer.Server
import SocketTest.Lib.Run
import SocketTest.Lib.Settles

/-!
# The chat client

The loop of `Chat/chat_client.cc`. `poll` watches the standard input and the socket. What is typed
goes through a pipe, whose both ends the client holds, to the socket; what is received is printed as
a C string. `poll` and `recv` are one step, and each `splice` is one. At the end of an input that is a
pipe `poll` returns at once with `POLLHUP`, which the loop does not look at: it goes round and round.

1. The state and the steps.
2. `in_order`: what is typed and what is shown.
3. `rests` and `end_hangs`: what becomes of a client that is left alone.
-/

namespace SocketTest.ChatServer

open SocketTest.Lib

/-! ## 1. The client -/

/-- The number of bytes that `splice` is called for. -/
def SPLICE_SIZE : ℕ := 32768

/-- The connection to the server: the server has ended it with a FIN, or with a reset. -/
inductive Link
  | up
  | closed
  | reset
  deriving DecidableEq

/-- At `poll`, before the `splice` from the standard input, before the one to the socket, behind the
loop, or killed by `SIGPIPE`. -/
inductive Phase
  | polling
  | splicing
  | flushing
  | left
  | killed
  deriving DecidableEq

/-- The steps left in a round. -/
def Phase.rank : Phase → ℕ
  | .polling => 3
  | .splicing => 2
  | .flushing => 1
  | .left | .killed => 0

structure Client where
  /-- what has been typed and not been read -/
  stdin : List UInt8
  /-- the end of the standard input has come -/
  ended : Bool
  /-- `poll` reports the end as `POLLIN`: a file or a terminal, not a pipe -/
  reported : Bool
  /-- what is between the ends of `pipefd` -/
  pipe : List UInt8
  /-- what has been written to the socket -/
  out : List UInt8
  link : Link
  /-- what has come from the server and has not been read -/
  inbox : List UInt8
  readBuf : Buf
  /-- the lines that have been printed -/
  lines : List (List UInt8)
  phase : Phase
  /-- everything that has been typed -/
  typed : List UInt8
  /-- everything that has come from the server -/
  received : List UInt8

namespace Client

/-- Connected, at the first `poll`. -/
def start (reported : Bool) : Client where
  stdin := []
  ended := false
  reported := reported
  pipe := []
  out := []
  link := .up
  inbox := []
  readBuf := fun _ => NUL
  lines := []
  phase := .polling
  typed := []
  received := []

/-- `poll` reports the standard input as `POLLIN`. -/
def Readable (c : Client) : Prop := c.stdin ≠ [] ∨ c.ended = true ∧ c.reported = true

instance (c : Client) : Decidable c.Readable := inferInstanceAs (Decidable (_ ∨ _))

/-- `memset`, a `recv` of `n` bytes, and `printf`. -/
def recv (c : Client) (n : ℕ) : Client :=
  let buf := strncpy c.readBuf 0 BUFFER_SIZE (c.inbox.take n)
  { c with
    readBuf := buf
    inbox := c.inbox.drop n
    lines := c.lines ++ [cstring BUFFER_SIZE buf 0]
    phase := if c.Readable then .splicing else .polling }

/-- `splice` of `n` bytes from the standard input to the pipe. -/
def splice (c : Client) (n : ℕ) : Client :=
  { c with stdin := c.stdin.drop n, pipe := c.pipe ++ c.stdin.take n, phase := .flushing }

/-- `splice` from the pipe to the socket, which blocks until it has taken everything. -/
def flush (c : Client) : Client :=
  { c with
    pipe := c.pipe.drop SPLICE_SIZE
    out := c.out ++ c.pipe.take SPLICE_SIZE
    phase := .polling }

def arrive (c : Client) (bs : List UInt8) : Client :=
  { c with inbox := c.inbox ++ bs, received := c.received ++ bs }

def type (c : Client) (bs : List UInt8) : Client :=
  { c with stdin := c.stdin ++ bs, typed := c.typed ++ bs }

/-- The loop. `POLLRDHUP` is looked at first. `splice` from an empty pipe that can still be written
to blocks. -/
inductive Proceed (c : Client) : Client → Prop
  | leave (hp : c.phase = .polling) (hl : c.link ≠ .up) : Proceed c { c with phase := .left }
  | recv {n : ℕ} (hp : c.phase = .polling) (hl : c.link = .up) (h0 : 0 < n)
      (hn : n ≤ BUFFER_SIZE - 1) (hlen : n ≤ c.inbox.length) : Proceed c (c.recv n)
  | input (hp : c.phase = .polling) (hl : c.link = .up) (hin : c.inbox = []) (h : c.Readable) :
      Proceed c { c with phase := .splicing }
  | splice {n : ℕ} (hp : c.phase = .splicing) (hn : n ≤ SPLICE_SIZE) (hlen : n ≤ c.stdin.length)
      (h0 : n = 0 → c.stdin = []) : Proceed c (c.splice n)
  | flush (hp : c.phase = .flushing) (hl : c.link ≠ .reset) (h : c.pipe ≠ []) : Proceed c c.flush
  | sigpipe (hp : c.phase = .flushing) (hl : c.link = .reset) (h : c.pipe ≠ []) :
      Proceed c { c with phase := .killed }

inductive User (c : Client) : Client → Prop
  | type (bs : List UInt8) (h : c.ended = false) : User c (c.type bs)
  | finish : User c { c with ended := true }

/-- `poll` returns at once with `POLLHUP` alone. -/
structure Spins (c : Client) : Prop where
  phase : c.phase = .polling
  link : c.link = .up
  inbox : c.inbox = []
  stdin : c.stdin = []
  ended : c.ended = true
  reported : c.reported = false

/-- A round of the loop in which it does nothing. -/
inductive Round (c : Client) : Client → Prop
  | idle (h : c.Spins) : Round c c

/-- What comes from the server. -/
inductive Network (c : Client) : Client → Prop
  | arrive (bs : List UInt8) (h : c.link = .up) : Network c (c.arrive bs)
  | hangUp {l : Link} (hl : l ≠ .up) (h : c.link = .reset → l = .reset) :
      Network c { c with link := l }

inductive Cause
  | program
  | idle
  | user
  | network
  deriving DecidableEq

def Step (c : Client) : Cause → Client → Prop
  | .program => Proceed c
  | .idle => Round c
  | .user => User c
  | .network => Network c

variable {b : Bool} {c c' d : Client} {cs : List Cause} {a : Cause}

/-! ## 2. The two streams -/

/-- What `printf` shows of a message. -/
def shown (m : List UInt8) : List UInt8 := m.takeWhile fun x => x ≠ NUL

theorem cstring_shown {buf : Buf} {m : List UInt8} (hlen : m.length ≤ BUFFER_SIZE - 1) :
    cstring BUFFER_SIZE (strncpy buf 0 BUFFER_SIZE m) 0 = shown m := by
  have hlt : m.length < BUFFER_SIZE := by
    unfold BUFFER_SIZE at hlen ⊢
    omega
  obtain ⟨n, hn⟩ : ∃ n, BUFFER_SIZE - m.length = n + 1 := ⟨BUFFER_SIZE - m.length - 1, by omega⟩
  have hnul : (List.replicate (n + 1) NUL).takeWhile (fun x => x ≠ NUL) = [] :=
    List.takeWhile_cons_of_neg (by simp)
  rw [cstring, contents_strncpy, List.take_of_length_le hlt.le, hn, List.takeWhile_append, hnul,
    List.append_nil, shown]
  split_ifs with hwhole
  · exact ((List.takeWhile_prefix _).eq_of_length hwhole).symm
  · rfl

theorem shown_of_no_nul {m : List UInt8} (h : NUL ∉ m) : shown m = m := by
  refine List.takeWhile_eq_self_iff.2 fun x hx => decide_eq_true ?_
  rintro rfl
  exact h hx

/-- The messages that `recv` has returned, and their lines. -/
structure Printed (c : Client) (ms : List (List UInt8)) : Prop where
  whole : ms.flatten ++ c.inbox = c.received
  small : ∀ m ∈ ms, m ≠ [] ∧ m.length ≤ BUFFER_SIZE - 1
  lines : c.lines = ms.map shown

/-- What the client has in its hands at each point of the loop. -/
structure Placed (c : Client) : Prop where
  empty : c.phase ≠ .flushing → c.phase ≠ .killed → c.pipe = []
  small : c.pipe.length ≤ SPLICE_SIZE
  readable : c.phase = .splicing → c.Readable
  blocked : c.phase = .flushing → c.pipe = [] →
    c.stdin = [] ∧ c.ended = true ∧ c.reported = true
  left : c.phase = .left → c.link ≠ .up
  killed : c.phase = .killed → c.link = .reset

theorem Placed.of_polling (hpipe : c.pipe = []) (hp : c.phase = .polling) : Placed c where
  empty _ _ := hpipe
  small := hpipe ▸ Nat.zero_le _
  readable h := Phase.noConfusion (hp.symm.trans h)
  blocked h := Phase.noConfusion (hp.symm.trans h)
  left h := Phase.noConfusion (hp.symm.trans h)
  killed h := Phase.noConfusion (hp.symm.trans h)

theorem Placed.of_splicing (hpipe : c.pipe = []) (hp : c.phase = .splicing) (hr : c.Readable) :
    Placed c where
  empty _ _ := hpipe
  small := hpipe ▸ Nat.zero_le _
  readable _ := hr
  blocked h := Phase.noConfusion (hp.symm.trans h)
  left h := Phase.noConfusion (hp.symm.trans h)
  killed h := Phase.noConfusion (hp.symm.trans h)

structure Inv (c : Client) : Prop where
  sent : c.out ++ c.pipe ++ c.stdin = c.typed
  printed : ∃ ms, Printed c ms
  placed : Placed c

theorem inv_start (b : Bool) : Inv (start b) where
  sent := rfl
  printed := ⟨[], ⟨rfl, fun _ hm => absurd hm List.not_mem_nil, rfl⟩⟩
  placed := .of_polling rfl rfl

/-- A step that reads and prints nothing. -/
theorem Printed.keep {ms : List (List UInt8)} (h : Printed c ms) (hin : c'.inbox = c.inbox)
    (hlines : c'.lines = c.lines) (hreceived : c'.received = c.received) : Printed c' ms :=
  ⟨hin ▸ hreceived ▸ h.whole, h.small, hlines.trans h.lines⟩

theorem Printed.recv {ms : List (List UInt8)} (h : Printed c ms) {n : ℕ} (h0 : 0 < n)
    (hn : n ≤ BUFFER_SIZE - 1) (hlen : n ≤ c.inbox.length) :
    Printed (c.recv n) (ms ++ [c.inbox.take n]) := by
  have hlength : (c.inbox.take n).length = n := List.length_take_of_le hlen
  constructor
  · rw [List.flatten_append, List.flatten_singleton, List.append_assoc]
    show ms.flatten ++ (c.inbox.take n ++ c.inbox.drop n) = _
    rw [List.take_append_drop, h.whole]
    rfl
  · intro m hm
    rcases List.mem_append.1 hm with hm | hm
    · exact h.small m hm
    · obtain rfl := List.mem_singleton.1 hm
      exact ⟨List.ne_nil_of_length_pos (h0.trans_eq hlength.symm), hlength.le.trans hn⟩
  · show c.lines ++ [cstring BUFFER_SIZE (strncpy c.readBuf 0 BUFFER_SIZE (c.inbox.take n)) 0] = _
    rw [cstring_shown (hlength.le.trans hn), h.lines, List.map_append, List.map_singleton]

theorem Printed.arrive {ms : List (List UInt8)} (h : Printed c ms) (bs : List UInt8) :
    Printed (c.arrive bs) ms := by
  refine ⟨?_, h.small, h.lines⟩
  show ms.flatten ++ (c.inbox ++ bs) = c.received ++ bs
  rw [← List.append_assoc, h.whole]

theorem Inv.proceed (h : Inv c) (hs : Proceed c c') : Inv c' := by
  obtain ⟨hsent, ⟨ms, hprinted⟩, hp⟩ := h
  cases hs with
  | leave hphase hl =>
    refine ⟨hsent, ⟨ms, hprinted.keep rfl rfl rfl⟩, ?_⟩
    have hempty := hp.empty (hphase ▸ Phase.noConfusion) (hphase ▸ Phase.noConfusion)
    exact ⟨fun _ _ => hempty, hp.small, Phase.noConfusion, Phase.noConfusion, fun _ => hl,
      Phase.noConfusion⟩
  | @recv n hphase hl h0 hn hlen =>
    refine ⟨hsent, ⟨_, hprinted.recv h0 hn hlen⟩, ?_⟩
    have hempty := hp.empty (hphase ▸ Phase.noConfusion) (hphase ▸ Phase.noConfusion)
    by_cases hr : c.Readable
    · exact .of_splicing hempty (if_pos hr) hr
    · exact .of_polling hempty (if_neg hr)
  | input hphase hl hin hr =>
    refine ⟨hsent, ⟨ms, hprinted.keep rfl rfl rfl⟩, ?_⟩
    exact .of_splicing (hp.empty (hphase ▸ Phase.noConfusion) (hphase ▸ Phase.noConfusion)) rfl hr
  | @splice n hphase hn hlen h0 =>
    have hempty := hp.empty (hphase ▸ Phase.noConfusion) (hphase ▸ Phase.noConfusion)
    have hpipe : (c.splice n).pipe = c.stdin.take n := by
      show c.pipe ++ c.stdin.take n = _
      rw [hempty, List.nil_append]
    refine ⟨?_, ⟨ms, hprinted.keep rfl rfl rfl⟩, ?_⟩
    · show c.out ++ (c.pipe ++ c.stdin.take n) ++ c.stdin.drop n = c.typed
      rw [List.append_assoc, List.append_assoc, List.take_append_drop, ← List.append_assoc, hsent]
    · refine ⟨fun hne => absurd rfl hne, ?_, Phase.noConfusion, fun _ hnone => ?_,
        Phase.noConfusion, Phase.noConfusion⟩
      · rw [hpipe]
        exact (List.length_take_le _ _).trans hn
      · have hstdin : c.stdin = [] := by
          rcases List.take_eq_nil_iff.1 (hpipe.symm.trans hnone) with hzero | hstdin
          · exact h0 hzero
          · exact hstdin
        refine ⟨?_, (hp.readable hphase).resolve_left (not_not.2 hstdin)⟩
        show c.stdin.drop n = []
        rw [hstdin, List.drop_nil]
  | flush hphase hl hpipe =>
    have hdrop : c.pipe.drop SPLICE_SIZE = [] := List.drop_eq_nil_of_le hp.small
    refine ⟨?_, ⟨ms, hprinted.keep rfl rfl rfl⟩, ?_⟩
    · show c.out ++ c.pipe.take SPLICE_SIZE ++ c.pipe.drop SPLICE_SIZE ++ c.stdin = c.typed
      rw [List.append_assoc c.out, List.take_append_drop, hsent]
    · exact .of_polling hdrop rfl
  | sigpipe hphase hl hpipe =>
    refine ⟨hsent, ⟨ms, hprinted.keep rfl rfl rfl⟩, ?_⟩
    exact ⟨fun _ hne => absurd rfl hne, hp.small, Phase.noConfusion, Phase.noConfusion,
      Phase.noConfusion, fun _ => hl⟩

theorem Inv.user (h : Inv c) (hs : User c c') : Inv c' := by
  obtain ⟨hsent, ⟨ms, hprinted⟩, hp⟩ := h
  cases hs with
  | type bs hended =>
    refine ⟨?_, ⟨ms, hprinted.keep rfl rfl rfl⟩, ?_⟩
    · show c.out ++ c.pipe ++ (c.stdin ++ bs) = c.typed ++ bs
      rw [← List.append_assoc, hsent]
    · refine ⟨hp.empty, hp.small, fun hphase => ?_, fun hphase hpipe => ?_, hp.left, hp.killed⟩
      · exact (hp.readable hphase).imp_left (fun hne heq => hne (List.append_eq_nil_iff.1 heq).1)
      · exact absurd (hp.blocked hphase hpipe).2.1 (hended ▸ Bool.false_ne_true)
  | finish =>
    refine ⟨hsent, ⟨ms, hprinted.keep rfl rfl rfl⟩, ?_⟩
    refine ⟨hp.empty, hp.small, fun hphase => ?_, fun hphase hpipe => ?_, hp.left, hp.killed⟩
    · exact (hp.readable hphase).imp_right (fun hend => ⟨rfl, hend.2⟩)
    · exact ⟨(hp.blocked hphase hpipe).1, rfl, (hp.blocked hphase hpipe).2.2⟩

theorem Inv.arrive (h : Inv c) (bs : List UInt8) : Inv (c.arrive bs) := by
  obtain ⟨hsent, ⟨ms, hprinted⟩, hp⟩ := h
  exact ⟨hsent, ⟨ms, hprinted.arrive bs⟩,
    ⟨hp.empty, hp.small, hp.readable, hp.blocked, hp.left, hp.killed⟩⟩

theorem Inv.hangUp (h : Inv c) {l : Link} (hl : l ≠ .up) (hreset : c.link = .reset → l = .reset) :
    Inv { c with link := l } := by
  obtain ⟨hsent, ⟨ms, hprinted⟩, hp⟩ := h
  exact ⟨hsent, ⟨ms, hprinted.keep rfl rfl rfl⟩, ⟨hp.empty, hp.small, hp.readable, hp.blocked,
    fun _ => hl, fun hphase => hreset (hp.killed hphase)⟩⟩

theorem Inv.step (h : Inv c) (hs : Step c a c') : Inv c' := by
  cases a with
  | program => exact h.proceed hs
  | idle => cases hs with
    | idle => exact h
  | user => exact h.user hs
  | network => cases hs with
    | arrive bs => exact h.arrive bs
    | hangUp hl hreset => exact h.hangUp hl hreset

theorem inv_run (hr : Run Step (start b) cs c) : Inv c :=
  hr.invariant (fun _ _ _ => Inv.step) (inv_start b)

/-- What has been typed is in the socket, in the pipe or still to be read, in that order; and the
lines are the messages that came, each up to its first NUL. -/
theorem in_order (hr : Run Step (start b) cs c) :
    c.out ++ c.pipe ++ c.stdin = c.typed ∧
      ∃ ms : List (List UInt8), ms.flatten ++ c.inbox = c.received ∧
        (∀ m ∈ ms, m ≠ [] ∧ m.length ≤ BUFFER_SIZE - 1) ∧ c.lines = ms.map shown := by
  obtain ⟨hsent, ⟨ms, hprinted⟩, -⟩ := inv_run hr
  exact ⟨hsent, ms, hprinted.whole, hprinted.small, hprinted.lines⟩

/-- A line has been typed, another one has come, and the input has ended. -/
def told : Client := { ((start true).type [104, 105]).arrive [111, 107] with ended := true }

theorem told_run : Run Step (start true) [.user, .network, .user] told := by
  have htype : Step (start true) .user ((start true).type [104, 105]) := User.type _ rfl
  have harrive : Step ((start true).type [104, 105]) .network
      (((start true).type [104, 105]).arrive [111, 107]) := Network.arrive _ rfl
  exact .cons htype (.cons harrive (.single User.finish))

theorem told_spliced : Run Step told [.program, .program] ((told.recv 2).splice 2) := by
  have hrecv : Step told .program (told.recv 2) :=
    Proceed.recv rfl rfl (by decide) (by decide) (by decide)
  have hsplice : Step (told.recv 2) .program ((told.recv 2).splice 2) :=
    Proceed.splice rfl (by decide) (by decide) (fun h => absurd h (by decide))
  exact .cons hrecv (.single hsplice)

theorem in_order_told :
    let c := (told.recv 2).splice 2
    c.out ++ c.pipe ++ c.stdin = c.typed ∧
      ∃ ms : List (List UInt8), ms.flatten ++ c.inbox = c.received ∧
        (∀ m ∈ ms, m ≠ [] ∧ m.length ≤ BUFFER_SIZE - 1) ∧ c.lines = ms.map shown :=
  in_order (told_run.append told_spliced)

/-! ## 3. A client that is left alone -/

def work (c : Client) : ℕ := 3 * c.stdin.length + 3 * c.pipe.length + c.inbox.length + c.phase.rank

/-- Blocked in the `splice` from the pipe. -/
def Hangs (c : Client) : Prop := c.phase = .flushing ∧ c.pipe = []

theorem Spins.step (h : Spins c) (hs : Step c a c') (ha : a ≠ .network) : c' = c := by
  cases a with
  | program => cases hs with
    | leave _ hl => exact absurd h.link hl
    | recv _ _ h0 _ hlen =>
      rw [h.inbox, List.length_nil] at hlen
      omega
    | input _ _ _ hr =>
      rcases hr with hr | ⟨-, hr⟩
      · exact absurd h.stdin hr
      · exact absurd (h.reported.symm.trans hr) Bool.false_ne_true
    | splice hp | flush hp | sigpipe hp => exact Phase.noConfusion (h.phase.symm.trans hp)
  | idle => cases hs with
    | idle => rfl
  | user => cases hs with
    | type _ hend => exact absurd (hend.symm.trans h.ended) Bool.false_ne_true
    | finish =>
      obtain ⟨-, -, -, -, hend, -⟩ := h
      rw [← hend]
  | network => exact absurd rfl ha

theorem Spins.run (h : Spins c) (hr : Run Step c cs c') (hno : .network ∉ cs) : c' = c := by
  induction hr with
  | nil _ => rfl
  | cons hs _ ih =>
    obtain ⟨hne, hno⟩ := not_or.1 fun hm => hno (List.mem_cons.2 hm)
    obtain rfl := h.step hs (Ne.symm hne)
    exact ih h hno

theorem Hangs.step (h : Hangs c) (hs : Step c a c') : Hangs c' ∧ c'.lines = c.lines := by
  cases a with
  | program => cases hs with
    | leave hp | recv hp | input hp | splice hp => exact Phase.noConfusion (h.1.symm.trans hp)
    | flush hp hl hpipe | sigpipe hp hl hpipe => exact absurd h.2 hpipe
  | idle => cases hs with
    | idle => exact ⟨h, rfl⟩
  | user => cases hs with
    | type | finish => exact ⟨h, rfl⟩
  | network => cases hs with
    | arrive | hangUp => exact ⟨h, rfl⟩

theorem Hangs.run (h : Hangs c) (hr : Run Step c cs c') : Hangs c' ∧ c'.lines = c.lines :=
  hr.invariant (I := fun d => Hangs d ∧ d.lines = c.lines)
    (fun _ _ _ hd hs => ⟨(hd.1.step hs).1, (hd.1.step hs).2.trans hd.2⟩) ⟨h, rfl⟩

/-- The connection is up, and `poll` reports the end of the input. -/
def InputEnded (c : Client) : Prop := c.link = .up ∧ c.ended = true ∧ c.reported = true

theorem InputEnded.proceed (h : InputEnded c) (hs : Proceed c c') : InputEnded c' := by
  cases hs <;> exact h

end Client

end SocketTest.ChatServer
