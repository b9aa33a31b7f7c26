import SocketTest.Http.Headers
import SocketTest.Http.Mapping

/-!
# One response for each connection

`parse_headers` is called only where `parse_line` has stopped without a line: at the end of the bytes
received, at a CR or at an LF. None of these is a header, so what `init` has put into `m_linger`,
`m_content_length` and `m_host` stays there. `write` then closes behind every response, and an answered
connection is not read from again.

1. A call that starts with the request line stores no header.
2. What every step of a slot keeps.
3. The runs behind an answer.
-/

namespace SocketTest.Http

open SocketTest.Lib

namespace HttpConn

variable {c c' : HttpConn} {o : Outcome}

/-! ## Calls -/

/-- Nothing is stored of any header. -/
structure Headless (c : HttpConn) : Prop where
  linger : c.linger = false
  contentLength : c.contentLength = 0
  host : c.host = none

theorem Headless.init (c : HttpConn) : Headless c.init := ⟨rfl, rfl, rfl⟩

theorem Headless.parseLine (h : Headless c) : Headless c.parseLine.2 := by
  obtain ⟨buf, i, hc⟩ := parseLine_frame c
  rw [hc]
  exact ⟨h.linger, h.contentLength, h.host⟩

theorem Headless.requestLine (h : Headless c) (text : ℕ) : Headless (c.parseRequestLine text).2 := by
  obtain ⟨buf, st, m, u, v, hc, -, -⟩ := parseRequestLine_frame c text
  rw [hc]
  exact ⟨h.linger, h.contentLength, h.host⟩

theorem Headless.pendingLine (h : Headless c) : Headless c.pendingLine.2 :=
  Headless.requestLine (c := c.parseLine.2.nextLine)
    ⟨h.parseLine.linger, h.parseLine.contentLength, h.parseLine.host⟩ _

/-- A call parses no header, and goes on to the next chunk in `CHECK_STATE_REQUESTLINE`. -/
theorem Headless.returns (h : Headless c) (hc : Resumed c) (hst : c.checkState = .requestLine)
    (hr : Returns c o c') :
    Headless c' ∧ (o = .code .noRequest → c'.checkState = .requestLine) := by
  rcases returns_requestLine hc hst hr with ⟨-, he⟩ | ⟨-, -, he⟩ | ⟨-, -, he⟩
  · cases he
    exact ⟨h.parseLine, fun _ => by rw [parseLine_checkState, hst]⟩
  · cases he
    exact ⟨h.pendingLine, nofun⟩
  · cases he
    exact ⟨h.pendingLine, nofun⟩

theorem Headless.doRequest (h : Headless c) (files : Files) : Headless (c.doRequest files).2 := by
  unfold HttpConn.doRequest
  cases c.url with
  | none => exact ⟨h.linger, h.contentLength, h.host⟩
  | some url =>
    dsimp only
    cases files _ with
    | none => exact ⟨h.linger, h.contentLength, h.host⟩
    | some st =>
      dsimp only
      split_ifs <;> exact ⟨h.linger, h.contentLength, h.host⟩

theorem doRequest_ne_noRequest (c : HttpConn) (files : Files) :
    (c.doRequest files).1 ≠ .noRequest := by
  unfold doRequest
  cases c.url with
  | none => nofun
  | some url =>
    dsimp only
    cases files _ with
    | none => nofun
    | some st =>
      dsimp only
      split_ifs <;> nofun

/-- What a worker makes of a connection that waits for its request. -/
theorem Headless.replies {files : Files} {ret : HttpCode} (h : Headless c) (hc : Resumed c)
    (hst : c.checkState = .requestLine) (hr : c.Replies files ret c') :
    Headless c' ∧ (ret = .noRequest → Resumed c' ∧ c'.checkState = .requestLine) := by
  rcases hr with hr | ⟨c₁, hr, hdo⟩
  · obtain ⟨h', hst'⟩ := h.returns hc hst hr
    exact ⟨h', fun he => ⟨hc.returns hr, hst' (by rw [he])⟩⟩
  · obtain ⟨h₁, -⟩ := h.returns hc hst hr
    obtain ⟨hret, rfl⟩ := Prod.ext_iff.1 hdo
    exact ⟨h₁.doRequest files, fun he => absurd (hret.trans he) (doRequest_ne_noRequest c₁ files)⟩

end HttpConn

open HttpConn

/-! ## The slot -/

/-- The steps that send an answer or end the connection. -/
def Act.Sends : Act → Prop
  | .write | .writev _ | .hangUp => True
  | _ => False

namespace Slot

variable {s s' s₀ : Slot} {a : Act} {as : List Act}

/-- What every step keeps: no header is stored while a connection is open, one that waits for a request
has not got past its request line, and an answer has bytes. -/
structure Unasked (s : Slot) : Prop where
  headers : s.stage ≠ .closed → s.conn.linger = false
  waits : s.stage = .armedIn ∨ s.stage = .queued →
    Headless s.conn ∧ Resumed s.conn ∧ s.conn.checkState = .requestLine
  written : ¬ s.stage.Idle → 0 < s.conn.writeIdx

theorem Unasked.closed (h : s.stage = .closed) : Unasked s := by
  refine ⟨fun hn => absurd h hn, ?_, fun hi => absurd (by rw [h]; trivial) hi⟩
  rintro (hw | hw)
  · rw [h] at hw
    cases hw
  · rw [h] at hw
    cases hw

/-- An open connection that waits for a request. -/
theorem Unasked.waiting (hidle : s.stage.Idle) (h : Headless s.conn) (hc : Resumed s.conn)
    (hst : s.conn.checkState = .requestLine) : Unasked s :=
  ⟨fun _ => h.linger, fun _ => ⟨h, hc, hst⟩, fun hi => absurd hidle hi⟩

/-- An open connection with an answer. -/
theorem Unasked.answering (hstage : ¬ s.stage.Idle) (hl : s.conn.linger = false)
    (hw : 0 < s.conn.writeIdx) : Unasked s := by
  refine ⟨fun _ => hl, ?_, fun _ => hw⟩
  rintro (h | h)
  · exact absurd (by rw [h]; trivial) hstage
  · exact absurd (by rw [h]; trivial) hstage

theorem Unasked.respond {ret : HttpCode} (h : s.conn.linger = false) (hret : ret ≠ .noRequest) :
    Unasked (s.respond ret) := by
  have hpos := respond_written s ret
  unfold Slot.respond at hpos ⊢
  rw [if_neg hret] at hpos ⊢
  dsimp only at hpos ⊢
  by_cases hok : (s.conn.processWrite ret).1 = true
  · rw [if_pos hok] at hpos ⊢
    exact answering id (by rw [processWrite_linger]; exact h) (hpos id)
  · rw [if_neg hok]
    exact closed rfl

/-- With `m_linger` unset, `write` closes behind the response. -/
theorem Unasked.finish (h : Unasked s) {bytesToSend bytesHaveSend : ℤ}
    (hstage : s.stage = .writing bytesToSend bytesHaveSend) (r : Writev) :
    Unasked (s.finish (s.conn.writeRound bytesToSend bytesHaveSend r)) ∧
      (s.finish (s.conn.writeRound bytesToSend bytesHaveSend r)).stage ≠ .armedIn := by
  have hlinger : s.conn.linger = false := h.headers (by rw [hstage]; exact Stage.noConfusion)
  have hpos : 0 < s.conn.writeIdx := h.written (by rw [hstage]; exact id)
  cases r with
  | again => exact ⟨answering id hlinger hpos, Stage.noConfusion⟩
  | error => exact ⟨closed rfl, Stage.noConfusion⟩
  | sent n =>
    rw [HttpConn.writeRound]
    by_cases hle : bytesToSend - n ≤ bytesHaveSend + n
    · rw [if_pos hle, hlinger]
      exact ⟨closed rfl, Stage.noConfusion⟩
    · rw [if_neg hle]
      exact ⟨answering id hlinger hpos, Stage.noConfusion⟩

theorem Unasked.step (h : Unasked s) (hs : Step s a s') : Unasked s' := by
  cases hs with
  | accept _ => exact waiting trivial (Headless.init _) (Resumed.init _) rfl
  | hangUp _ => exact closed rfl
  | @read chunk hstage =>
    obtain ⟨hh, hc, hst⟩ := h.waits (.inl hstage)
    by_cases hr : (s.conn.read chunk).1 = true
    · have heq := (read_eq hr).1
      refine waiting ?_ ?_ (hc.read hr) ?_
      · dsimp only
        rw [if_pos hr]
        trivial
      · dsimp only
        rw [heq]
        exact ⟨hh.linger, hh.contentLength, hh.host⟩
      · dsimp only
        rw [heq]
        exact hst
    · exact closed (if_neg hr)
  | readFails _ _ => exact closed rfl
  | @process files address ret c hstage hr _ =>
    obtain ⟨hh, hc, hst⟩ := h.waits (.inr hstage)
    obtain ⟨hh', hwait⟩ := hh.replies hc hst hr
    by_cases hret : ret = .noRequest
    · obtain ⟨hc', hst'⟩ := hwait hret
      unfold Slot.respond
      rw [if_pos hret]
      exact waiting trivial hh' hc' hst'
    · exact respond hh'.linger hret
  | @processFile files address c hstage hr _ _ =>
    obtain ⟨hh, hc, hst⟩ := h.waits (.inr hstage)
    obtain ⟨hh', -⟩ := hh.replies hc hst hr
    exact respond hh'.linger nofun
  | write hstage =>
    have hidle : ¬ s.stage.Idle := by rw [hstage]; exact id
    have hpos := h.written hidle
    have hstart : s.conn.writeStart = (.loop s.conn.writeIdx 0, s.conn) := if_neg hpos.ne'
    rw [hstart]
    exact answering id (h.headers (by rw [hstage]; nofun)) hpos
  | @writev bytesToSend bytesHaveSend r hstage => exact (h.finish hstage r).1

theorem unasked_of_run (h0 : s₀.Fresh) (hr : Run Step s₀ as s) : Unasked s :=
  hr.invariant (fun _ _ _ h hs => h.step hs) (.closed h0.stage)

/-! ## Behind an answer -/

/-- An answered connection only sends, and stays answered or is closed. -/
theorem Unasked.sends (h : Unasked s) (hi : ¬ s.stage.Idle ∨ s.stage = .closed) (hs : Step s a s')
    (ha : a ≠ .accept) : a.Sends ∧ (¬ s'.stage.Idle ∨ s'.stage = .closed) := by
  have hnot : s.stage ≠ .armedIn ∧ s.stage ≠ .queued := by
    constructor
    · intro he
      rw [he] at hi
      rcases hi with hi | hi
      · exact hi trivial
      · cases hi
    · intro he
      rw [he] at hi
      rcases hi with hi | hi
      · exact hi trivial
      · cases hi
  cases hs with
  | accept _ => exact absurd rfl ha
  | hangUp _ => exact ⟨trivial, .inr rfl⟩
  | read hstage => exact absurd hstage hnot.1
  | readFails hstage _ => exact absurd hstage hnot.1
  | process hstage _ _ => exact absurd hstage hnot.2
  | processFile hstage _ _ _ => exact absurd hstage hnot.2
  | write hstage =>
    have hpos : 0 < s.conn.writeIdx := h.written (by rw [hstage]; exact id)
    have hstart : s.conn.writeStart = (.loop s.conn.writeIdx 0, s.conn) := if_neg hpos.ne'
    rw [hstart]
    exact ⟨trivial, .inl id⟩
  | @writev bytesToSend bytesHaveSend r hstage =>
    refine ⟨trivial, ?_⟩
    have hne := (h.finish hstage r).2
    generalize s.conn.writeRound bytesToSend bytesHaveSend r = x at hne ⊢
    obtain ⟨phase, c⟩ := x
    cases phase with
    | waiting => exact .inl id
    | loop a b => exact .inl id
    | finished result =>
      cases result with
      | true => exact absurd rfl hne
      | false => exact .inr rfl
    | failed => exact .inr rfl

/-- **One response for each connection.** While a connection is open, `m_linger` is unset, so the
response says `Connection: close`; a connection that waits for a request has stored no header of any
line it has received. Once there is an answer, the slot does nothing but send it until the next
connection is accepted: no further byte is read and no further request processed. -/
theorem one_response (h0 : s₀.Fresh) (hr : Run Step s₀ as s) :
    (s.stage ≠ .closed → s.conn.linger = false) ∧
      (s.stage = .armedIn ∨ s.stage = .queued → s.conn.headers = .of false []) ∧
      (¬ s.stage.Idle → ∀ bs s', Run Step s bs s' → .accept ∉ bs → ∀ b ∈ bs, b.Sends) := by
  have h := unasked_of_run h0 hr
  refine ⟨h.headers, fun hw => ?_, fun hanswer bs s' hbs hacc => ?_⟩
  · obtain ⟨hh, -, -⟩ := h.waits hw
    unfold HttpConn.headers
    rw [hh.linger, hh.contentLength, hh.host]
    rfl
  · have hi : ¬ s.stage.Idle ∨ s.stage = .closed := .inl hanswer
    clear h0 hr hanswer
    induction hbs with
    | nil s => nofun
    | @cons s t u b bs hs _ ih =>
      obtain ⟨hb, ht⟩ := h.sends hi hs fun he => hacc (he ▸ List.mem_cons_self)
      intro b' hb'
      rcases List.mem_cons.1 hb' with rfl | hb'
      · exact hb
      · exact ih (h.step hs) (fun hm => hacc (List.mem_cons_of_mem _ hm)) ht b' hb'

/-- The one-byte file is sent, and the connection ends. -/
theorem one_response_oneFile : ∃ s, Run Step zeroed oneFile s ∧ s.stage = .armedOut ∧
    s.conn.linger = false ∧ ∀ bs s', Run Step s bs s' → .accept ∉ bs → ∀ b ∈ bs, b.Sends := by
  obtain ⟨s, hr, hs⟩ := oneFile_run
  have hrun : Run Step zeroed oneFile s := hr.mono fun _ _ _ h => h.1
  obtain ⟨hlinger, -, hsends⟩ := one_response ⟨rfl, rfl⟩ hrun
  exact ⟨s, hrun, hs.stage, hlinger (by rw [hs.stage]; nofun), hsends (by rw [hs.stage]; exact id)⟩

end Slot

end SocketTest.Http
