import SocketTest.Http.FileResponse
import SocketTest.Lib.Ledger

/-!
# The mapped file of a connection slot

A slot of `users` serves one connection after the other. `do_request` maps a file and leaves its
address in `m_file_address`; the length is read off `m_file_stat` when `unmap` releases it. `close_conn`
and `init` do not release it: `mappings_balanced` says which runs still release what they map.

1. What `process_write` keeps, and that it counts what it has written.
2. The steps of a slot, as the main loop and a worker drive it.
3. The runs in which every mapping is released before the next request or connection.
-/

namespace SocketTest.Http

open SocketTest.Lib

namespace HttpConn

variable {c c' : HttpConn} {s : List UInt8}

/-! ## `process_write` -/

/-- What appending to the response leaves as it is. -/
structure Grows (c c' : HttpConn) : Prop where
  fileSize : c'.fileSize = c.fileSize
  writeIdx : c.writeIdx ≤ c'.writeIdx

theorem Grows.trans {c'' : HttpConn} (h : Grows c c') (h' : Grows c' c'') : Grows c c'' :=
  ⟨h'.fileSize.trans h.fileSize, h.writeIdx.trans h'.writeIdx⟩

theorem addResponse_grows (c : HttpConn) (s : List UInt8) : Grows c (c.addResponse s).2 := by
  unfold addResponse
  split_ifs
  · exact ⟨rfl, le_rfl⟩
  · dsimp only
    split_ifs
    · exact ⟨rfl, le_rfl⟩
    · exact ⟨rfl, Nat.le_add_right _ _⟩

theorem addResponse_fits (h : (c.addResponse s).1 = true) :
    (c.addResponse s).2.writeIdx = c.writeIdx + s.length := by
  unfold addResponse at h ⊢
  split_ifs at h ⊢
  dsimp only at h ⊢
  split_ifs at h ⊢
  rfl

/-- A short text leaves something in the buffer, be it what was there before. -/
theorem addResponse_pos (hs : s ≠ []) (hlen : s.length < WRITE_BUFFER_SIZE - 1) :
    0 < (c.addResponse s).2.writeIdx := by
  have hpos : 0 < s.length := List.length_pos_of_ne_nil hs
  have hsize : WRITE_BUFFER_SIZE = 1024 := rfl
  unfold addResponse
  split_ifs
  · dsimp only
    omega
  · dsimp only
    split_ifs <;> dsimp only <;> omega

theorem addHeaders_grows (c : HttpConn) (n : ℤ) : Grows c (c.addHeaders n) := by
  have h₁ : Grows c (c.addContentLength n).2 := addResponse_grows _ _
  have h₂ : Grows (c.addContentLength n).2 (c.addContentLength n).2.addLinger.2 :=
    addResponse_grows _ _
  exact (h₁.trans h₂).trans (addResponse_grows _ _)

/-- What `process_write` gives back. -/
structure Written (c : HttpConn) (r : Bool × HttpConn) : Prop where
  fileSize : r.2.fileSize = c.fileSize
  pos : r.1 = true → 0 < r.2.writeIdx

theorem written_writeError (c : HttpConn) (status : ℕ) (title : List UInt8) {form : List UInt8}
    (hform : form ≠ []) : Written c (c.writeError status title form) := by
  have h₁ : Grows c (c.addStatusLine status title).2 := addResponse_grows _ _
  have h₂ := h₁.trans (addHeaders_grows _ form.length)
  unfold writeError
  dsimp only
  generalize (c.addStatusLine status title).2.addHeaders form.length = c₂ at h₂ ⊢
  have h₃ : Grows c (c₂.addContent form).2 := h₂.trans (addResponse_grows _ _)
  split_ifs with hfits
  · refine ⟨h₃.fileSize, fun _ => ?_⟩
    show 0 < (c₂.addResponse form).2.writeIdx
    rw [addResponse_fits hfits]
    exact Nat.add_pos_right _ (List.length_pos_of_ne_nil hform)
  · exact ⟨h₃.fileSize, nofun⟩

theorem written_processWrite (c : HttpConn) (code : HttpCode) : Written c (c.processWrite code) := by
  have hpos : 0 < (c.addStatusLine 200 ok200Title).2.writeIdx :=
    addResponse_pos (by decide) (by decide)
  have h₁ : Grows c (c.addStatusLine 200 ok200Title).2 := addResponse_grows _ _
  cases code with
  | internalError => exact written_writeError c 500 _ (by decide)
  | badRequest => exact written_writeError c 400 _ (by decide)
  | noResource => exact written_writeError c 404 _ (by decide)
  | forbiddenRequest => exact written_writeError c 403 _ (by decide)
  | fileRequest =>
    unfold processWrite
    dsimp only
    generalize (c.addStatusLine 200 ok200Title).2 = c₁ at hpos h₁ ⊢
    split_ifs
    · have h₂ := addHeaders_grows c₁ (toInt32 c₁.fileSize)
      exact ⟨(h₁.trans h₂).fileSize, fun _ => hpos.trans_le h₂.writeIdx⟩
    · have h₂ := addHeaders_grows c₁ okString.length
      have h₃ : Grows (c₁.addHeaders okString.length)
          ((c₁.addHeaders okString.length).addContent okString).2 := addResponse_grows _ _
      exact ⟨((h₁.trans h₂).trans h₃).fileSize, nofun⟩
  | noRequest | getRequest | closedConnection => exact ⟨rfl, nofun⟩

theorem processWrite_file_true (h : c.fileSize ≠ 0) : (c.processWrite .fileRequest).1 = true := by
  have hsize : (c.addStatusLine 200 ok200Title).2.fileSize = c.fileSize :=
    (addResponse_grows _ _).fileSize
  unfold processWrite
  dsimp only
  rw [if_pos (by rwa [hsize])]

/-- `process_read` returns `ret`, with `do_request` where it comes to that. -/
def Replies (files : Files) (c : HttpConn) (ret : HttpCode) (c' : HttpConn) : Prop :=
  c.Returns (.code ret) c' ∨ ∃ c₁, c.Returns .doRequest c₁ ∧ c₁.doRequest files = (ret, c')

end HttpConn

/-! ## The slot -/

/-- What `m_file_address` holds; `failed` is `MAP_FAILED`. -/
inductive Address
  | null
  | failed
  | mapped (p : ℕ)
  deriving DecidableEq, Repr

/-- What the slot waits for: a connection, `EPOLLIN`, a worker, `EPOLLOUT`, or `writev` in the loop of
`write` with its two counters. -/
inductive Stage
  | closed
  | armedIn
  | queued
  | armedOut
  | writing (bytesToSend bytesHaveSend : ℤ)
  deriving DecidableEq, Repr

/-- The log has a mark where a connection begins and where a request is read, and the address and
length of each mapping and of each `munmap`. -/
structure Slot where
  conn : HttpConn
  address : Address
  stage : Stage
  log : List (Ledger.Entry (Address × ℤ))

/-- The stages without a response. -/
def Stage.Idle : Stage → Prop
  | .closed | .armedIn | .queued => True
  | .armedOut | .writing _ _ => False

inductive Act
  | accept
  | hangUp
  | read (chunk : List UInt8)
  | readFails (chunk : List UInt8)
  | process (files : Files) (address : Address)
  | write
  | writev (r : Writev)

namespace Slot

/-- `unmap`. -/
def unmap (s : Slot) : Slot :=
  match s.address with
  | .null => s
  | address => { s with address := .null, log := s.log ++ [.give (address, s.conn.fileSize)] }

/-- `mmap` in `do_request` returns `address`. -/
def mmap (s : Slot) (address : Address) : Slot :=
  { s with
    address := address
    log := match address with
      | .mapped _ => s.log ++ [.take (address, s.conn.fileSize)]
      | _ => s.log }

/-- `process` behind `process_read`. -/
def respond (s : Slot) (ret : HttpCode) : Slot :=
  if ret = .noRequest then { s with stage := .armedIn }
  else
    let r := s.conn.processWrite ret
    { s with conn := r.2, stage := if r.1 then .armedOut else .closed }

/-- `write` behind a round of its loop. -/
def finish (s : Slot) : Phase × HttpConn → Slot
  | (.waiting, c) => { s with conn := c, stage := .armedOut }
  | (.loop a b, c) => { s with conn := c, stage := .writing a b }
  | (.finished result, c) =>
    { s.unmap with conn := c, stage := if result then .armedIn else .closed }
  | (.failed, c) => { s.unmap with conn := c, stage := .closed }

/-- The main loop and the worker that has the slot. `mmap` of no bytes fails. -/
inductive Step : Slot → Act → Slot → Prop
  | accept {s : Slot} : s.stage = .closed →
      Step s .accept { s with
        conn := s.conn.init
        stage := .armedIn
        log := s.log ++ [.begins] }
  | hangUp {s : Slot} : s.stage = .armedIn ∨ s.stage = .armedOut →
      Step s .hangUp { s with stage := .closed }
  | read {s : Slot} {chunk : List UInt8} : s.stage = .armedIn →
      Step s (.read chunk) { s with
        conn := (s.conn.read chunk).2
        stage := if (s.conn.read chunk).1 then .queued else .closed
        log := s.log ++ [.begins] }
  | readFails {s : Slot} {chunk : List UInt8} : s.stage = .armedIn →
      s.conn.readIdx + chunk.length ≤ READ_BUFFER_SIZE →
      Step s (.readFails chunk) { s with
        conn := s.conn.receive chunk
        stage := .closed
        log := s.log ++ [.begins] }
  | process {s : Slot} {files : Files} {address : Address} {ret : HttpCode} {c : HttpConn} :
      s.stage = .queued → s.conn.Replies files ret c → ret ≠ .fileRequest →
      Step s (.process files address) ({ s with conn := c }.respond ret)
  | processFile {s : Slot} {files : Files} {address : Address} {c : HttpConn} :
      s.stage = .queued → s.conn.Replies files .fileRequest c → address ≠ .null →
      (address ≠ .failed → 0 < c.fileSize) →
      Step s (.process files address) (({ s with conn := c }.mmap address).respond .fileRequest)
  | write {s : Slot} : s.stage = .armedOut →
      Step s .write { s with
        conn := s.conn.writeStart.2
        stage := match s.conn.writeStart.1 with
          | .loop a b => .writing a b
          | _ => .armedIn }
  | writev {s : Slot} {a b : ℤ} {r : Writev} : s.stage = .writing a b →
      Step s (.writev r) (s.finish (s.conn.writeRound a b r))

/-- The slot before its first connection. -/
structure Fresh (s : Slot) : Prop where
  stage : s.stage = .closed
  log : s.log = []

/-- A step in which `mmap`, if it is called, does not fail, and the peer does not hang up with a file
mapped. -/
def Regular (s : Slot) : Act → Prop
  | .hangUp => s.address = .null
  | .process _ address => address ≠ .failed
  | _ => True

/-! ## Runs -/

variable {s s' : Slot} {a : Act} {as : List Act}

/-- The mapping to be released. -/
def held (s : Slot) : Option (Address × ℤ) :=
  match s.address with
  | .mapped p => some (.mapped p, s.conn.fileSize)
  | _ => none

/-- What regular steps keep. -/
structure Kept (s : Slot) : Prop where
  balanced : Ledger.Balanced s.log
  held : ∀ r, s.log.getLast? = some (.take r) ↔ s.held = some r
  address : s.address ≠ .failed
  idle : s.stage.Idle → s.address = .null
  written : ¬ s.stage.Idle → 0 < s.conn.writeIdx

/-- Nothing is mapped. -/
structure Free (log : List (Ledger.Entry (Address × ℤ))) : Prop where
  balanced : Ledger.Balanced log
  last : ∀ r, log.getLast? ≠ some (.take r)

theorem Free.kept (h : Free s.log) (haddress : s.address = .null)
    (hwritten : ¬ s.stage.Idle → 0 < s.conn.writeIdx) : Kept s := by
  refine ⟨h.balanced, fun r => ?_, by rw [haddress]; nofun, fun _ => haddress, hwritten⟩
  rw [held, haddress]
  exact iff_of_false (h.last r) nofun

theorem Kept.free (h : Kept s) (haddress : s.address = .null) : Free s.log := by
  refine ⟨h.balanced, fun r hr => ?_⟩
  have hheld := (h.held r).1 hr
  rw [Slot.held, haddress] at hheld
  cases hheld

theorem Free.begins {log : List (Ledger.Entry (Address × ℤ))} (h : Free log) :
    Free (log ++ [.begins]) := by
  refine ⟨h.balanced.append (Ledger.follows_free h.last nofun), fun r hr => ?_⟩
  rw [List.getLast?_concat] at hr
  cases hr

/-- `unmap` releases what is mapped. -/
theorem Kept.unmap (h : Kept s) : Free s.unmap.log ∧ s.unmap.address = .null := by
  unfold Slot.unmap
  split
  · next haddress => exact ⟨h.free haddress, haddress⟩
  · refine ⟨⟨?_, fun r hr => ?_⟩, rfl⟩
    · have hlast : s.log.getLast? = some (.take (s.address, s.conn.fileSize)) := by
        rw [h.held, Slot.held]
        cases haddress : s.address with
        | null => contradiction
        | failed => exact absurd haddress h.address
        | mapped p => rfl
      apply h.balanced.append
      rw [hlast]
      exact Ledger.follows_give
    · rw [List.getLast?_concat] at hr
      cases hr

/-- `mmap` with nothing mapped before. -/
theorem Free.mmap (h : Free s.log) (p : ℕ) : Ledger.Balanced (s.mmap (.mapped p)).log ∧
    (s.mmap (.mapped p)).log.getLast? = some (.take (.mapped p, s.conn.fileSize)) :=
  ⟨h.balanced.append (Ledger.follows_free h.last nofun), List.getLast?_concat⟩

theorem respond_log (s : Slot) (ret : HttpCode) :
    (s.respond ret).log = s.log ∧ (s.respond ret).address = s.address := by
  unfold respond
  split_ifs <;> exact ⟨rfl, rfl⟩

theorem respond_written (s : Slot) (ret : HttpCode) (h : ¬ (s.respond ret).stage.Idle) :
    0 < (s.respond ret).conn.writeIdx := by
  unfold respond at h ⊢
  split_ifs at h ⊢ with h1
  · exact absurd trivial h
  · dsimp only at h ⊢
    split_ifs at h with h2
    · exact (HttpConn.written_processWrite s.conn ret).pos h2
    · exact absurd trivial h

theorem respond_file {c : HttpConn} (h : c.fileSize ≠ 0) (hs : s.conn = c) :
    (s.respond .fileRequest).stage = .armedOut ∧
      (s.respond .fileRequest).conn.fileSize = c.fileSize := by
  subst hs
  unfold respond
  rw [if_neg nofun]
  dsimp only
  rw [if_pos (HttpConn.processWrite_file_true h)]
  exact ⟨rfl, (HttpConn.written_processWrite _ _).fileSize⟩

theorem Kept.finish (h : Kept s) {bytesToSend bytesHaveSend : ℤ}
    (hstage : s.stage = .writing bytesToSend bytesHaveSend) (r : Writev) :
    Kept (s.finish (s.conn.writeRound bytesToSend bytesHaveSend r)) := by
  have hpos : 0 < s.conn.writeIdx := h.written (by rw [hstage]; exact id)
  -- the loop goes on, or `write` returns to wait for `EPOLLOUT` again
  have hstay : ∀ stage : Stage, ¬ stage.Idle → Kept { s with stage := stage } :=
    fun stage hi => ⟨h.balanced, h.held, h.address, fun hidle => absurd hidle hi, fun _ => hpos⟩
  -- the response is done with
  have hdone : ∀ c (stage : Stage), stage.Idle → Kept { s.unmap with conn := c, stage := stage } :=
    fun c stage hi => Free.kept (s := { s.unmap with conn := c, stage := stage }) h.unmap.1 h.unmap.2
      fun hidle => absurd hi hidle
  cases r with
  | again => exact hstay .armedOut id
  | error => exact hdone _ .closed trivial
  | sent n =>
    rw [HttpConn.writeRound]
    split_ifs
    · exact hdone _ _ (by cases s.conn.linger <;> trivial)
    · exact hdone _ _ (by cases s.conn.linger <;> trivial)
    · exact hstay _ id

theorem Kept.step (h : Kept s) (hs : Step s a s') (hreg : s.Regular a) : Kept s' := by
  have hfree : s.stage.Idle → Free s.log := fun hi => h.free (h.idle hi)
  cases hs with
  | accept hstage =>
    have hi : s.stage.Idle := by rw [hstage]; trivial
    exact (hfree hi).begins.kept (h.idle hi) fun hn => absurd trivial hn
  | hangUp _ =>
    exact Free.kept (s := { s with stage := .closed }) (h.free hreg) hreg fun hn => absurd trivial hn
  | @read chunk hstage =>
    have hi : s.stage.Idle := by rw [hstage]; trivial
    refine (hfree hi).begins.kept (h.idle hi) fun hn => absurd ?_ hn
    dsimp only
    split_ifs <;> trivial
  | readFails hstage _ =>
    have hi : s.stage.Idle := by rw [hstage]; trivial
    exact (hfree hi).begins.kept (h.idle hi) fun hn => absurd trivial hn
  | @process files address ret c hstage _ _ =>
    have hi : s.stage.Idle := by rw [hstage]; trivial
    obtain ⟨hlog, haddress⟩ := respond_log { s with conn := c } ret
    refine Free.kept ?_ (haddress.trans (h.idle hi)) (respond_written _ ret)
    rw [hlog]
    exact hfree hi
  | @processFile files address c hstage _ hnull hlen =>
    have hi : s.stage.Idle := by rw [hstage]; trivial
    cases address with
    | null => exact absurd rfl hnull
    | failed => exact absurd rfl hreg
    | mapped p =>
      obtain ⟨hbalanced, hlast⟩ := Free.mmap (s := { s with conn := c }) (hfree hi) p
      have hsize : c.fileSize ≠ 0 := (hlen nofun).ne'
      obtain ⟨hlog, haddress⟩ := respond_log ({ s with conn := c }.mmap (.mapped p)) .fileRequest
      obtain ⟨harmed, hconn⟩ :=
        respond_file (s := { s with conn := c }.mmap (.mapped p)) hsize rfl
      constructor
      · rw [hlog]
        exact hbalanced
      · intro r
        rw [hlog, hlast, Slot.held, haddress, hconn]
        simp [Slot.mmap]
      · rw [haddress]
        nofun
      · intro hidle
        rw [harmed] at hidle
        cases hidle
      · exact respond_written _ _
  | write hstage =>
    have hpos : 0 < s.conn.writeIdx := h.written (by rw [hstage]; exact id)
    have hstart : s.conn.writeStart = (.loop s.conn.writeIdx 0, s.conn) := if_neg hpos.ne'
    rw [hstart]
    exact ⟨h.balanced, h.held, h.address, fun hidle => absurd hidle id, fun _ => hpos⟩
  | @writev bytesToSend bytesHaveSend r hstage => exact h.finish hstage r

/-- **Mappings.** In a run from a slot with a null `m_file_address`, in which no `mmap` fails and the
peer does not hang up while a file is mapped, every mapping is released by the next `munmap`, before the
next request or connection, and nothing else is released. -/
theorem mappings_balanced {s₀ : Slot} (h0 : s₀.Fresh) (haddress : s₀.address = .null)
    (hr : Run (fun s a t => Step s a t ∧ s.Regular a) s₀ as s) : Ledger.Balanced s.log := by
  have hfree : Free s₀.log := by
    rw [h0.log]
    exact ⟨Ledger.balanced_nil, nofun⟩
  have hkept : Kept s := hr.invariant (fun _ _ _ h hs => h.step hs.1 hs.2)
    (hfree.kept haddress fun hn => absurd (by rw [h0.stage]; trivial) hn)
  exact hkept.balanced

/-- A slot of a table filled with zeros. -/
def zeroed : Slot := ⟨HttpConn.unused, .null, .closed, []⟩

/-- The steps up to a response with the file of one byte, mapped at 4096. -/
def oneFile : List Act :=
  [.accept, .read (bytes "GET / HTTP/1.1"), .process HttpConn.oneByte (.mapped 4096)]

/-- A slot with the file in its response. -/
structure HoldsFile (s : Slot) : Prop where
  stage : s.stage = .armedOut
  address : s.address = .mapped 4096
  fileSize : s.conn.fileSize = 1
  written : 0 < s.conn.writeIdx
  log : s.log = [.begins, .begins, .take (.mapped 4096, 1)]

theorem oneFile_run : ∃ s, Run (fun s a t => Step s a t ∧ s.Regular a) zeroed oneFile s ∧
    s.HoldsFile := by
  let c := (HttpConn.dispatched.doRequest HttpConn.oneByte).2
  have hreplies : (HttpConn.unused.init.read (bytes "GET / HTTP/1.1")).2.Replies HttpConn.oneByte
      .fileRequest c := by
    cases HttpConn.dispatched_run with
    | cons hcall hnil =>
      cases hnil
      exact .inr ⟨_, hcall.2, Prod.ext (by decide +kernel) rfl⟩
  have hread : Step ⟨HttpConn.unused.init, .null, .armedIn, [.begins]⟩
      (.read (bytes "GET / HTTP/1.1")) ⟨(HttpConn.unused.init.read (bytes "GET / HTTP/1.1")).2,
        .null, .queued, [.begins, .begins]⟩ := .read rfl
  have hsize : c.fileSize = 1 := by decide +kernel
  obtain ⟨hstage, hfile⟩ := respond_file (s := ⟨c, .mapped 4096, .queued,
    [.begins, .begins, .take (.mapped 4096, c.fileSize)]⟩) (by rw [hsize]; decide) rfl
  refine ⟨_, .cons ⟨.accept rfl, trivial⟩ (.cons ⟨hread, trivial⟩
    (.cons ⟨.processFile rfl hreplies nofun fun _ => ?_, nofun⟩ (.nil _))), hstage,
    (respond_log _ _).2, hfile.trans hsize, respond_written _ _ ?_, ?_⟩
  · rw [hsize]
    decide
  · exact fun hidle => cast (congrArg Stage.Idle hstage) hidle
  · rw [(respond_log _ _).1]
    show [Ledger.Entry.begins, .begins, .take (Address.mapped 4096, c.fileSize)] = _
    rw [hsize]

/-- The response is sent whole. -/
theorem oneFile_sent : ∃ s n, Run (fun s a t => Step s a t ∧ s.Regular a) zeroed
    (oneFile ++ [.write, .writev (.sent n)]) s ∧
      s.log = [.begins, .begins, .take (.mapped 4096, 1), .give (.mapped 4096, 1)] := by
  obtain ⟨s, hr, hs⟩ := oneFile_run
  have hstart : s.conn.writeStart = (.loop s.conn.writeIdx 0, s.conn) := if_neg hs.written.ne'
  have hwrite : Step s .write { s with stage := .writing s.conn.writeIdx 0 } := by
    have hstep : Step s .write _ := .write hs.stage
    rwa [hstart] at hstep
  refine ⟨_, s.conn.writeIdx, hr.append (.cons ⟨hwrite, trivial⟩ (.single ⟨.writev rfl, trivial⟩)), ?_⟩
  have hround : s.conn.writeRound s.conn.writeIdx 0 (.sent s.conn.writeIdx) =
      (.finished s.conn.linger, if s.conn.linger then s.conn.unmap.init else s.conn.unmap) := by
    refine if_pos ?_
    omega
  show (Slot.finish _ (s.conn.writeRound s.conn.writeIdx 0 (.sent s.conn.writeIdx))).log = _
  rw [hround]
  show (Slot.unmap { s with stage := .writing s.conn.writeIdx 0 }).log = _
  unfold Slot.unmap
  rw [hs.address]
  show s.log ++ [.give (Address.mapped 4096, s.conn.fileSize)] = _
  rw [hs.log, hs.fileSize]
  rfl

theorem mappings_balanced_oneFile : ∃ s : Slot, Ledger.Balanced s.log ∧
    s.log = [.begins, .begins, .take (.mapped 4096, 1), .give (.mapped 4096, 1)] := by
  obtain ⟨s, n, hr, hlog⟩ := oneFile_sent
  exact ⟨s, mappings_balanced ⟨rfl, rfl⟩ rfl hr, hlog⟩

/-- The peer hangs up before the file is sent, and the slot gets its next connection. -/
theorem mapping_leaked : ¬ ∀ (s₀ s : Slot) (as : List Act), s₀.Fresh → s₀.address = .null →
    Run Step s₀ as s → Ledger.Balanced s.log := by
  intro hall
  obtain ⟨s, hr, hs⟩ := oneFile_run
  have hrun : Run Step zeroed (oneFile ++ [.hangUp, .accept]) _ :=
    (hr.mono fun _ _ _ h => h.1).append
      (.cons (.hangUp (.inr hs.stage)) (.cons (.accept rfl) (.nil _)))
  have hbalanced := hall _ _ _ ⟨rfl, rfl⟩ rfl hrun
  dsimp only at hbalanced
  rw [hs.log] at hbalanced
  have hnext := hbalanced [.begins, .begins, .take (.mapped 4096, 1)] .begins [] rfl
  cases hnext.1 _ rfl

end Slot

end SocketTest.Http
