import SocketTest.Lib.CString
import SocketTest.Lib.Memory
import SocketTest.Lib.Run

/-!
# The connections of the process pool

`cgi_conn::process` over the answers of `recv`. The body of the `for` that looks for `\r\n` is a
semicolon, so that the block behind it runs once, with `idx == m_read_idx`, and the code behind the block
is not reached before a write behind `m_buf` has changed `m_read_idx`.

`buf` is `m_buf` and the memory behind it, apart from the other members; an access behind `m_buf` is
recorded as a fault. The line that `printf` writes, and the standard output of a forked child, are left
out.

1. The functions of the source and the steps.
2. `received_eq`: the branch that executes the file is dead. `never_recognises`.
3. `inside_iff`: a second byte takes the next `recv` out of the buffer.
-/

namespace SocketTest.ProcessPool

open SocketTest.Lib

def BUFFER_SZIE : ℕ := 1024

/-- `cgi_conn`, and whether `process` runs, which is then waiting for `recv`. -/
structure CgiConn where
  buf : Buf
  readIdx : ℕ
  running : Bool
  /-- `removefd` has been called -/
  removed : Bool
  /-- the files that `execl` has been called with -/
  execs : List (List UInt8)
  faults : List Fault

namespace CgiConn

/-- `init`; the events of the connection before this one are forgotten. -/
def init (c : CgiConn) : CgiConn :=
  { buf := fun i => if i < BUFFER_SZIE then NUL else c.buf i
    readIdx := 0
    running := false
    removed := false
    execs := []
    faults := [] }

/-- The bytes below `stop` are used. -/
def touch (c : CgiConn) (stop : ℕ) : CgiConn :=
  { c with faults := if stop ≤ BUFFER_SZIE then c.faults else c.faults ++ [.outOfBounds (stop - 1)] }

/-- `recv(m_sockfd, m_buf + idx, BUFFER_SZIE - 1, 0)` is called, with `idx == m_read_idx`. -/
def request (c : CgiConn) : CgiConn := c.touch (c.readIdx + (BUFFER_SZIE - 1))

/-- `recv` has written the bytes. -/
def store (c : CgiConn) (chunk : List UInt8) : CgiConn :=
  { c with
    buf := fun i => if c.readIdx ≤ i ∧ i < c.readIdx + chunk.length then chunk.getD (i - c.readIdx) NUL
      else c.buf i
    readIdx := c.readIdx + chunk.length }

/-- `for(; idx < m_read_idx; ++idx);` -/
def skip (idx readIdx : ℕ) : ℕ := if idx < readIdx then skip (idx + 1) readIdx else idx
termination_by readIdx - idx

/-- `(idx >= 1) && (m_buf[idx - 1] == '\r') && (m_buf[idx] == '\n')` -/
def endsLine (c : CgiConn) (idx : ℕ) : Bool × CgiConn :=
  if 1 ≤ idx then
    if c.buf (idx - 1) = CR then (c.buf idx = LF, (c.touch idx).touch (idx + 1))
    else (false, c.touch idx)
  else (false, c)

/-- The branch for a positive `ret`; `true` when the loop goes on. `exist` is what `access` finds, and
`forks` whether `fork` gives a child. -/
def received (exist : List UInt8 → Bool) (forks : Bool) (c : CgiConn) (chunk : List UInt8) :
    Bool × CgiConn :=
  let idx := c.readIdx
  let c := c.store chunk
  let idx := skip idx c.readIdx
  let (found, c) := c.endsLine idx
  if found then (false, c)
  else if idx = c.readIdx then (true, c)
  else
    let c := { c.touch idx with buf := Function.update c.buf (idx - 1) NUL }
    let file := cstring BUFFER_SZIE c.buf 0
    if exist file then
      (false, { c with removed := true, execs := if forks then c.execs ++ [file] else c.execs })
    else (false, { c with removed := true })

/-- The end of a round of the loop: `recv` is called again, or `process` returns. -/
def next : Bool × CgiConn → CgiConn
  | (true, c) => c.request
  | (false, c) => { c with running := false }

/-- A call of `process`, or what `recv` returns in one: bytes, 0, or -1 with `EAGAIN` or with another
error. -/
inductive Event
  | process
  | data (chunk : List UInt8) (forks : Bool)
  | closed
  | again
  | error
  deriving DecidableEq

inductive Step (exist : List UInt8 → Bool) : CgiConn → Event → CgiConn → Prop
  | process {c : CgiConn} (hrun : c.running = false) :
      Step exist c .process ({ c with running := true }).request
  | data {c : CgiConn} {chunk : List UInt8} {forks : Bool} (hrun : c.running = true)
      (hpos : 0 < chunk.length) (hle : chunk.length ≤ BUFFER_SZIE - 1) :
      Step exist c (.data chunk forks) (next (c.received exist forks chunk))
  | closed {c : CgiConn} (hrun : c.running = true) :
      Step exist c .closed { c with removed := true, running := false }
  | again {c : CgiConn} (hrun : c.running = true) :
      Step exist c .again { c with running := false }
  | error {c : CgiConn} (hrun : c.running = true) :
      Step exist c .error { c with removed := true, running := false }

/-- What `recv` has given. -/
def stream (as : List Event) : List UInt8 :=
  as.flatMap fun
    | .data chunk _ => chunk
    | _ => []

/-- All along the run, the file `f` has been executed when it has arrived with its `\r\n`, and nothing
before. -/
def Recognises (exist : List UInt8 → Bool) (c₀ : CgiConn) (f : List UInt8) (as : List Event) : Prop :=
  ∀ pre c, pre <+: as → Run (Step exist) c₀.init pre c →
    c.execs = if f ++ CRLF <+: stream pre then [f] else []

variable {exist : List UInt8 → Bool} {c₀ c c' : CgiConn} {as : List Event} {a : Event}
  {f chunk : List UInt8} {forks : Bool} {idx : ℕ}

/-! ## The branch behind the block -/

theorem skip_eq {readIdx : ℕ} (h : idx ≤ readIdx) : skip idx readIdx = readIdx := by
  induction idx using skip.induct readIdx with
  | case1 idx hlt ih =>
    unfold skip
    rw [if_pos hlt, ih hlt]
  | case2 idx hge =>
    unfold skip
    rw [if_neg hge]
    omega

@[simp] theorem touch_buf (c : CgiConn) (stop : ℕ) : (c.touch stop).buf = c.buf := rfl

@[simp] theorem touch_readIdx (c : CgiConn) (stop : ℕ) : (c.touch stop).readIdx = c.readIdx := rfl

@[simp] theorem touch_execs (c : CgiConn) (stop : ℕ) : (c.touch stop).execs = c.execs := rfl

@[simp] theorem endsLine_buf (c : CgiConn) (idx : ℕ) : (c.endsLine idx).2.buf = c.buf := by
  unfold endsLine; split_ifs <;> rfl

@[simp] theorem endsLine_readIdx (c : CgiConn) (idx : ℕ) :
    (c.endsLine idx).2.readIdx = c.readIdx := by
  unfold endsLine; split_ifs <;> rfl

@[simp] theorem endsLine_execs (c : CgiConn) (idx : ℕ) : (c.endsLine idx).2.execs = c.execs := by
  unfold endsLine; split_ifs <;> rfl

theorem received_eq (exist : List UInt8 → Bool) (forks : Bool) (c : CgiConn) (chunk : List UInt8) :
    c.received exist forks chunk =
      (!((c.store chunk).endsLine (c.readIdx + chunk.length)).1,
        ((c.store chunk).endsLine (c.readIdx + chunk.length)).2) := by
  have hskip : skip c.readIdx (c.store chunk).readIdx = c.readIdx + chunk.length :=
    skip_eq (Nat.le_add_right _ _)
  have hidx : ((c.store chunk).endsLine (c.readIdx + chunk.length)).2.readIdx =
      c.readIdx + chunk.length := endsLine_readIdx _ _
  unfold received
  dsimp only
  rw [hskip, hidx, if_pos rfl]
  cases ((c.store chunk).endsLine (c.readIdx + chunk.length)).1 <;> rfl

@[simp] theorem next_buf (go : Bool) (c : CgiConn) : (next (go, c)).buf = c.buf := by
  cases go
  · rfl
  · exact touch_buf c _

@[simp] theorem next_readIdx (go : Bool) (c : CgiConn) : (next (go, c)).readIdx = c.readIdx := by
  cases go
  · rfl
  · exact touch_readIdx c _

@[simp] theorem next_execs (go : Bool) (c : CgiConn) : (next (go, c)).execs = c.execs := by
  cases go
  · rfl
  · exact touch_execs c _

theorem execs_step (hs : Step exist c a c') : c'.execs = c.execs := by
  cases hs with
  | data hrun hpos hle =>
    rw [received_eq, next_execs, endsLine_execs]
    rfl
  | _ => rfl

theorem execs_of_run (hr : Run (Step exist) c₀.init as c) : c.execs = [] :=
  hr.invariant (I := fun c => c.execs = []) (fun _ _ _ h hs => (execs_step hs).trans h) rfl

/-- **No request is recognised.** Whatever file the stream names, however it is cut into chunks and calls
of `process`, it is not executed when its `\r\n` has arrived. -/
theorem never_recognises (hr : Run (Step exist) c₀.init as c) (hcrlf : f ++ CRLF <+: stream as) :
    ¬ Recognises exist c₀ f as := by
  intro h
  have hexec := h as c (List.prefix_refl _) hr
  rw [execs_of_run hr, if_pos hcrlf] at hexec
  cases hexec

/-- Memory that holds NULs only, with no connection yet. -/
def blank : CgiConn := ⟨fun _ => NUL, 0, false, false, [], []⟩

/-- What one chunk leaves. -/
def oneChunk (exist : List UInt8 → Bool) (chunk : List UInt8) : CgiConn :=
  next (({ blank.init with running := true }).request.received exist true chunk)

theorem oneChunk_run (hpos : 0 < chunk.length) (hle : chunk.length ≤ BUFFER_SZIE - 1) :
    Run (Step exist) blank.init [.process, .data chunk true] (oneChunk exist chunk) :=
  .cons (.process rfl) (.single (.data rfl hpos hle))

theorem never_recognises_ls : ¬ Recognises (fun _ => true) blank (bytes "/bin/ls")
    [.process, .data (bytes "/bin/ls" ++ CRLF) true] :=
  never_recognises (oneChunk_run (by decide) (by decide)) (by decide)

/-- The only file is `a`. -/
theorem request_not_executed :
    (oneChunk (fun file => file = bytes "a") (bytes "a" ++ CRLF)).execs = [] ∧
      ¬ Recognises (fun file => file = bytes "a") blank (bytes "a")
        [.process, .data (bytes "a" ++ CRLF) true] := by
  have hr : Run (Step fun file => file = bytes "a") blank.init
      [.process, .data (bytes "a" ++ CRLF) true]
      (oneChunk (fun file => file = bytes "a") (bytes "a" ++ CRLF)) :=
    oneChunk_run (by decide) (by decide)
  refine ⟨execs_of_run hr, fun h => ?_⟩
  have hexec := h _ _ (List.prefix_refl _) hr
  rw [execs_of_run hr] at hexec
  exact absurd hexec (by decide)

/-! ## The buffer -/

theorem touch_clean {stop : ℕ} :
    (c.touch stop).faults = [] ↔ c.faults = [] ∧ stop ≤ BUFFER_SZIE := by
  unfold touch
  dsimp only
  split_ifs with h
  · exact (and_iff_left h).symm
  · simp [h]

theorem endsLine_clean (hidx : 1 ≤ idx) : (c.endsLine idx).2.faults = [] ↔
    c.faults = [] ∧ idx ≤ BUFFER_SZIE ∧ (c.buf (idx - 1) = CR → idx < BUFFER_SZIE) := by
  unfold endsLine
  rw [if_pos hidx]
  split_ifs with hcr
  · rw [touch_clean, touch_clean, and_assoc]
    simp [hcr]
  · rw [touch_clean]
    simp [hcr]

theorem endsLine_true (h : (c.endsLine idx).1 = true) :
    1 ≤ idx ∧ c.buf (idx - 1) = CR ∧ c.buf idx = LF := by
  unfold endsLine at h
  split_ifs at h with hidx hcr
  exact ⟨hidx, hcr, of_decide_eq_true h⟩

/-- No fault as long as one byte has been received, and then nothing but NULs behind it. -/
structure Counted (as : List Event) (c : CgiConn) : Prop where
  readIdx : c.readIdx = (stream as).length
  clean : c.faults = [] ↔ c.readIdx ≤ 1
  blank : c.readIdx ≤ 1 → ∀ i, c.readIdx ≤ i → i < BUFFER_SZIE → c.buf i = NUL

theorem stream_concat (as : List Event) (a : Event) : stream (as ++ [a]) = stream as ++ stream [a] :=
  List.flatMap_append

theorem store_buf_behind (c : CgiConn) (chunk : List UInt8) {i : ℕ}
    (h : c.readIdx + chunk.length ≤ i) : (c.store chunk).buf i = c.buf i :=
  if_neg fun hi => by omega

theorem Counted.request (h : Counted as c) : Counted as c.request := by
  unfold CgiConn.request
  constructor
  · rw [touch_readIdx, h.readIdx]
  · rw [touch_clean, touch_readIdx, h.clean]
    unfold BUFFER_SZIE
    omega
  · rw [touch_readIdx, touch_buf]
    exact h.blank

theorem Counted.data (h : Counted as c) (hpos : 0 < chunk.length) :
    Counted (as ++ [.data chunk forks]) (next (c.received exist forks chunk)) := by
  have hreads : (stream (as ++ [.data chunk forks])).length = c.readIdx + chunk.length := by
    rw [stream_concat, List.length_append, ← h.readIdx]
    simp [stream]
  have hbehind : c.readIdx + chunk.length ≤ 1 → ∀ i, c.readIdx + chunk.length ≤ i →
      i < BUFFER_SZIE → (c.store chunk).buf i = NUL := by
    intro hle i hi hlt
    rw [store_buf_behind c chunk hi]
    exact h.blank (by omega) i (by omega) hlt
  rw [received_eq]
  refine ⟨?_, ?_, ?_⟩
  · rw [next_readIdx, endsLine_readIdx, hreads]
    rfl
  · rw [next_readIdx, endsLine_readIdx]
    have hclean : ((c.store chunk).endsLine (c.readIdx + chunk.length)).2.faults = [] ↔
        c.faults = [] ∧ c.readIdx + chunk.length ≤ BUFFER_SZIE ∧
          ((c.store chunk).buf (c.readIdx + chunk.length - 1) = CR →
            c.readIdx + chunk.length < BUFFER_SZIE) := endsLine_clean (by omega)
    rw [h.clean] at hclean
    have hsize : BUFFER_SZIE = 1024 := rfl
    cases hfound : ((c.store chunk).endsLine (c.readIdx + chunk.length)).1 with
    | false =>
      show (CgiConn.request _).faults = [] ↔ _
      unfold CgiConn.request
      rw [touch_clean, hclean, endsLine_readIdx]
      show _ ∧ c.readIdx + chunk.length + _ ≤ _ ↔ c.readIdx + chunk.length ≤ 1
      constructor
      · omega
      · intro hle
        exact ⟨⟨by omega, by omega, fun _ => by omega⟩, by omega⟩
    | true =>
      -- the byte behind the last one is a line feed, so it lies behind the buffer
      obtain ⟨-, hcr, hlf⟩ := endsLine_true hfound
      have hnot : ¬ (c.readIdx + chunk.length ≤ 1) := by
        intro hle
        rw [hbehind hle _ le_rfl (by omega)] at hlf
        exact absurd hlf (by decide)
      refine iff_of_false (fun hno => ?_) hnot
      obtain ⟨hle, -, hlt⟩ := hclean.1 hno
      rw [store_buf_behind c chunk le_rfl, h.blank hle _ (by omega) (hlt hcr)] at hlf
      exact absurd hlf (by decide)
  · rw [next_readIdx, endsLine_readIdx, next_buf, endsLine_buf]
    exact hbehind

theorem Counted.step (h : Counted as c) (hs : Step exist c a c') : Counted (as ++ [a]) c' := by
  have hsame (hnil : stream [a] = []) (running removed : Bool) :
      Counted (as ++ [a]) { c with running := running, removed := removed } := by
    refine ⟨?_, h.clean, h.blank⟩
    rw [stream_concat, hnil, List.append_nil]
    exact h.readIdx
  cases hs with
  | process hrun => exact (hsame rfl true c.removed).request
  | data hrun hpos hle => exact h.data hpos
  | closed hrun => exact hsame rfl false true
  | again hrun => exact hsame rfl false c.removed
  | error hrun => exact hsame rfl false true

theorem counted_init (c₀ : CgiConn) : Counted [] c₀.init :=
  ⟨rfl, iff_of_true rfl (Nat.zero_le 1), fun _ _ _ hlt => if_pos hlt⟩

theorem counted_of_run (hr : Run (Step exist) c₀.init as c) : Counted as c :=
  hr.history Counted (counted_init c₀) fun _ _ _ _ h hs => h.step hs

/-- **The buffer holds one byte.** All requests and all bytes that the scan uses are in `m_buf` exactly
as long as `recv` has given at most one byte. -/
theorem inside_iff (hr : Run (Step exist) c₀.init as c) :
    c.faults = [] ↔ (stream as).length ≤ 1 := by
  have h := counted_of_run hr
  rw [h.clean, h.readIdx]

theorem inside_iff_byte : (oneChunk (fun _ => false) (bytes "a")).faults = [] :=
  (inside_iff (oneChunk_run (by decide) (by decide))).2 (by decide)

/-- With two bytes read, `recv` is called for the indices up to 1024. -/
theorem two_bytes_outside : ∃ c, Run (Step fun _ => false) blank.init
    [.process, .data (bytes "ab") true] c ∧ c.faults ≠ [] := by
  have hr : Run (Step fun _ => false) blank.init [.process, .data (bytes "ab") true]
      (oneChunk (fun _ => false) (bytes "ab")) := oneChunk_run (by decide) (by decide)
  refine ⟨_, hr, fun hno => ?_⟩
  have h := counted_of_run hr
  have htwo := h.clean.1 hno
  rw [h.readIdx] at htwo
  exact absurd htwo (by decide)

end CgiConn

end SocketTest.ProcessPool
