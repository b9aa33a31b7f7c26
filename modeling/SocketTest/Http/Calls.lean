import SocketTest.Http.ProcessRead
import SocketTest.Lib.Run

/-!
# Calls of `process_read`

A call that starts in `CHECK_STATE_REQUESTLINE` and finds a complete line returns `NO_REQUEST`
without a look at it (`returns_line`): the loop condition holds when `parse_line` does *not* return
`LINE_OK`. Only when there is no further line the pending bytes go to `parse_request_line`; if it
accepts them, a scan that has run out makes the empty rest look like the empty line behind the
headers (`returns_runsOut`), and a scan that stops short repeats for ever (`not_returns_stopsShort`).
-/

namespace SocketTest.Http.HttpConn

open SocketTest.Lib

variable {c c' : HttpConn} {o : Outcome} {s : LineStatus} {r : Outcome × HttpConn}

/-! ## What a call keeps -/

/-- What `parse_line` and the parse functions keep is kept by a call. A call that comes to
`do_request` has left the request line behind. -/
theorem Returns.parses {I : HttpConn → Prop} (hline : ∀ c, I c → I c.parseLine.2)
    (hparses : ∀ t c', I t → Parses t c' → I c') (hr : Returns c o c') (h : I c) :
    I c' ∧ (o = .doRequest → c'.checkState ≠ .requestLine) := by
  have hstep : ∀ {c t : HttpConn}, I c → t = c ∨ t = c.parseLine.2 → I t := by
    rintro c t hc (rfl | rfl)
    · exact hc
    · exact hline c hc
  apply Loop.Ends.invariant (I := fun x => I x.1)
    (Q := fun r => I r.2 ∧ (r.1 = .doRequest → r.2.checkState ≠ .requestLine)) _ _ hr h
  · rintro ⟨c, s⟩ ⟨c₂, s₂⟩ hc hb
    obtain ⟨t, ht, hex | ⟨c₁, hp, ⟨o, ho, -⟩ | ⟨s', hs⟩⟩⟩ := round_parses c s
    · rw [hex] at hb
      cases hb
    · rw [ho] at hb
      cases hb
    · rw [hs] at hb
      cases hb
      exact hparses t _ (hstep hc ht) hp
  · rintro ⟨c, s⟩ ⟨o₂, c₂⟩ hc hb
    obtain ⟨t, ht, hex | ⟨c₁, hp, ⟨o, ho, hdo⟩ | ⟨s', hs⟩⟩⟩ := round_parses c s
    · rw [hex] at hb
      cases hb
      exact ⟨hstep hc ht, fun h => by cases h⟩
    · rw [ho] at hb
      cases hb
      exact ⟨hparses t _ (hstep hc ht) hp, fun h => hp.keeps.checkState (hdo h)⟩
    · rw [hs] at hb
      cases hb

theorem Returns.invariant {I : HttpConn → Prop} (hline : ∀ c, I c → I c.parseLine.2)
    (hkeeps : ∀ c c', I c → Keeps c.nextLine c' → I c') (hr : Returns c o c') (h : I c) : I c' :=
  (hr.parses hline (fun t c' ht hp => hkeeps t c' ht hp.keeps) h).1

/-- A call has one result. -/
theorem Returns.unique {o' : Outcome} {d : HttpConn} (h : Returns c o c') (h' : Returns c o' d) :
    o = o' ∧ c' = d :=
  Prod.mk.injEq _ _ _ _ ▸ Loop.Ends.unique h h'

theorem Clear.nextLine (h : Clear c) : Clear c.nextLine := ⟨h.checked_le, h.nul⟩

theorem Clear.returns (h : Clear c) (hr : Returns c o c') : Clear c' :=
  hr.invariant (fun _ h => h.parseLine) (fun _ _ h hk => h.nextLine.keeps hk) h

/-- A call does not go back to the request line. -/
theorem Returns.past_requestLine (hr : Returns c o c') (h : c.checkState ≠ .requestLine) :
    c'.checkState ≠ .requestLine :=
  hr.invariant (I := fun c => c.checkState ≠ .requestLine)
    (fun c h => by rwa [parseLine_checkState]) (fun _ _ h hk => hk.checkState h) h

/-! ## Calls in `CHECK_STATE_REQUESTLINE` -/

theorem Stops.blanked (h : Stops c s) (hc : c'.checkedIdx = c.checkedIdx)
    (hr : c'.readIdx = c.readIdx) (hb : Blanked c.readBuf c'.readBuf) : Stops c' s := by
  have hsame : c.readBuf c.checkedIdx ∉ blanks → c'.readBuf c.checkedIdx = c.readBuf c.checkedIdx := by
    intro hn
    rcases hb c.checkedIdx with h | ⟨h, -⟩
    · exact h
    · exact absurd h hn
  cases h with
  | atEnd h =>
    apply Stops.atEnd
    rw [hc, hr, h]
  | trailingCR h hCR =>
    apply Stops.trailingCR
    · rw [hc, hr, h]
    · rw [hc, hsame (by rw [hCR]; decide), hCR]
  | bareLF h hLF hn =>
    apply Stops.bareLF
    · rw [hc, hr]
      exact h
    · rw [hc, hsame (by rw [hLF]; decide), hLF]
    · rw [hc]
      rintro ⟨h1, h2⟩
      rcases hb (c.checkedIdx - 1) with h | ⟨-, h⟩
      · exact hn ⟨h1, h ▸ h2⟩
      · rw [h] at h2
        exact absurd h2 (by decide)

theorem Stops.nextLine (h : Stops c s) : Stops c.nextLine s :=
  h.blanked rfl rfl (Blanked.refl _)

theorem Stops.same (h : Stops c s) (hc : SameScan c c') : Stops c' s :=
  h.blanked hc.checkedIdx hc.readIdx (hc.readBuf ▸ Blanked.refl _)

theorem Clear.same (h : Clear c) (hc : SameScan c c') : Clear c' := by
  constructor
  · rw [hc.checkedIdx, hc.readIdx]
    exact h.checked_le
  · rw [hc.readBuf, hc.readIdx]
    exact h.nul

theorem nextLine_eq_self (h : c.startLine = c.checkedIdx) : c.nextLine = c := by
  cases c
  dsimp only at h
  subst h
  rfl

theorem returns_line (hst : c.checkState ≠ .content) (hl : c.parseLine.1 = .ok) :
    Returns c o c' ↔ (o, c') = (.code .noRequest, c.parseLine.2) :=
  Loop.ends_exit (round_line (.inl hst) hl)

theorem returns_rejected (hst : c.checkState = .requestLine) (hl : c.parseLine.1 ≠ .ok)
    (hbad : c.pendingLine.1 = .badRequest) :
    Returns c o c' ↔ (o, c') = (.code .badRequest, c.pendingLine.2) := by
  apply Loop.ends_exit
  rw [round_requestLine hst hl, if_pos hbad]

/-- Where an accepted request line leaves the connection. -/
structure Accepted (c c' : HttpConn) : Prop where
  checkState : c'.checkState = .header
  stops : Stops c' c.parseLine.1
  checkedIdx : c'.checkedIdx = c.parseLine.2.checkedIdx
  startLine : c'.startLine = c'.checkedIdx
  readIdx : c'.readIdx = c.readIdx
  contentLength : c'.contentLength = c.contentLength

theorem pendingLine_accepted (h : c.checkedIdx ≤ c.readIdx) (hl : c.parseLine.1 ≠ .ok)
    (hacc : c.pendingLine.1 ≠ .badRequest) : Accepted c c.pendingLine.2 := by
  obtain ⟨hs, -⟩ := parseLine_stops h hl
  constructor
  · exact parseRequestLine_accepts hacc
  · exact hs.nextLine.blanked (by simp [pendingLine]) (by simp [pendingLine])
      (parseRequestLine_blanked _ _)
  · simp [pendingLine, HttpConn.nextLine]
  · simp [pendingLine, HttpConn.nextLine]
  · simp [pendingLine, HttpConn.nextLine]
  · simp [pendingLine, HttpConn.nextLine]

theorem returns_accepted (hst : c.checkState = .requestLine) (hl : c.parseLine.1 ≠ .ok)
    (hacc : c.pendingLine.1 ≠ .badRequest) : Returns c o c' ↔ Returns c.pendingLine.2 o c' := by
  apply Loop.ends_round
  rw [round_requestLine hst hl, if_neg hacc]

/-! ## The round on an empty rest and on a rest without a line -/

/-- At the end of the bytes received the rest is taken for the empty line behind the headers. -/
theorem round_rest (hc : Clear c) (hst : c.checkState = .header) (hs : Stops c s)
    (hstart : c.startLine = c.checkedIdx) (hend : c.checkedIdx = c.readIdx) :
    processRound (c, .ok)
      = if c.contentLength = 0 then .inl (.doRequest, c)
        else .inr (c.toContent, .ok) := by
  have hl : c.parseLine = (s, c) := parseLine_of_stops hs
  have hne : c.parseLine.1 ≠ .ok := by
    rw [hl]
    exact hs.ne_ok
  have hnext : c.parseLine.2.nextLine = c := by rw [hl, nextLine_eq_self hstart]
  have hnul : c.readBuf c.startLine = NUL := hc.nul _ (by omega)
  by_cases h0 : c.contentLength = 0
  · rw [if_pos h0]
    apply round_header_get hst hne
    rw [hnext, parseHeaders_get hnul h0]
  · rw [if_neg h0]
    apply round_header_next hst hne
    rw [hnext, parseHeaders_body hnul h0]

/-- A rest that starts with a CR or LF is taken again and again. -/
theorem not_ends_rest (hst : c.checkState = .header) (hs : Stops c s)
    (hstart : c.startLine = c.checkedIdx) (hlt : c.checkedIdx < c.readIdx) :
    ¬ Loop.Ends processRound (c, .ok) r := by
  have hl : c.parseLine = (s, c) := parseLine_of_stops hs
  have hb : c.readBuf c.startLine = CR ∨ c.readBuf c.startLine = LF := by
    rw [hstart]
    cases hs with
    | atEnd h => omega
    | trailingCR _ h => exact .inl h
    | bareLF _ h _ => exact .inr h
  apply Loop.not_ends (I := fun x => x = (c, .ok)) _ rfl
  rintro _ rfl
  refine ⟨(c, .ok), ?_, rfl⟩
  apply round_header_next hst
  · rw [hl]
    exact hs.ne_ok
  · rw [hl, nextLine_eq_self hstart, parseHeaders_lineEnd hb]

theorem returns_runsOut (hc : Clear c) (hst : c.checkState = .requestLine)
    (h0 : c.contentLength = 0) (hr : c.RunsOut) (hacc : c.pendingLine.1 ≠ .badRequest) :
    Returns c o c' ↔ (o, c') = (.doRequest, c.pendingLine.2) := by
  obtain ⟨hl, hend⟩ := hr
  have ha := pendingLine_accepted hc.checked_le hl hacc
  have hc' : Clear c.pendingLine.2 := hc.parseLine.nextLine.keeps (Keeps.requestLine _ _)
  rw [returns_accepted hst hl hacc]
  apply Loop.ends_exit
  rw [round_rest hc' ha.checkState ha.stops ha.startLine
    (by rw [ha.checkedIdx, ha.readIdx, hend]), if_pos (by rw [ha.contentLength, h0])]

theorem not_returns_stopsShort (hle : c.checkedIdx ≤ c.readIdx) (hst : c.checkState = .requestLine)
    (hs : c.StopsShort) (hacc : c.pendingLine.1 ≠ .badRequest) : ¬ Returns c o c' := by
  obtain ⟨hl, hlt⟩ := hs
  have ha := pendingLine_accepted hle hl hacc
  rw [returns_accepted hst hl hacc]
  apply not_ends_rest ha.checkState ha.stops ha.startLine
  rw [ha.checkedIdx, ha.readIdx]
  exact hlt

/-! ## Runs of calls -/

/-- The connection that `process_read` is called with when the last chunk of `received` has been read
and the calls for the chunks before it have returned. -/
def Entered (c₀ : HttpConn) (received : List (List UInt8)) (c : HttpConn) : Prop :=
  ∃ ls chunk c₁, received = ls.map Prod.fst ++ [chunk] ∧ Run Call c₀.init ls c₁ ∧
    (c₁.read chunk).1 = true ∧ c = (c₁.read chunk).2

/-- What holds of a connection between two calls. -/
structure Resumed (c : HttpConn) : Prop where
  clear : Clear c
  contentLength : c.checkState = .requestLine → c.contentLength = 0

theorem Resumed.init (c : HttpConn) : Resumed c.init := ⟨Clear.init c, fun _ => rfl⟩

theorem Resumed.read (h : Resumed c) {chunk : List UInt8} (hr : (c.read chunk).1 = true) :
    Resumed (c.read chunk).2 := by
  rw [(read_eq hr).1]
  exact ⟨h.clear.receive chunk, h.contentLength⟩

/-- How a call that starts with the request line ends. -/
theorem returns_requestLine (h : Resumed c) (hst : c.checkState = .requestLine)
    (hr : Returns c o c') :
    c.parseLine.1 = .ok ∧ (o, c') = (.code .noRequest, c.parseLine.2) ∨
      c.parseLine.1 ≠ .ok ∧ c.pendingLine.1 = .badRequest ∧
        (o, c') = (.code .badRequest, c.pendingLine.2) ∨
      c.RunsOut ∧ c.pendingLine.1 ≠ .badRequest ∧ (o, c') = (.doRequest, c.pendingLine.2) := by
  by_cases hl : c.parseLine.1 = .ok
  · exact .inl ⟨hl, (returns_line (by rw [hst]; simp) hl).1 hr⟩
  right
  by_cases hacc : c.pendingLine.1 = .badRequest
  · exact .inl ⟨hl, hacc, (returns_rejected hst hl hacc).1 hr⟩
  · right
    rcases runsOut_or_stopsShort h.clear.checked_le hl with hs | hs
    · exact ⟨hs, hacc, (returns_runsOut h.clear hst (h.contentLength hst) hs hacc).1 hr⟩
    · exact absurd hr (not_returns_stopsShort h.clear.checked_le hst hs hacc)

theorem Resumed.returns (h : Resumed c) (hr : Returns c o c') : Resumed c' := by
  apply Resumed.mk (h.clear.returns hr)
  intro hst'
  have hst : c.checkState = .requestLine := by
    by_contra hne
    exact hr.past_requestLine hne hst'
  rcases returns_requestLine h hst hr with ⟨-, he⟩ | ⟨-, -, he⟩ | ⟨⟨hl, -⟩, hacc, he⟩
  · cases he
    rw [parseLine_contentLength, h.contentLength hst]
  · cases he
    simp [pendingLine, HttpConn.nextLine, h.contentLength hst]
  · cases he
    rw [(pendingLine_accepted h.clear.checked_le hl hacc).checkState] at hst'
    cases hst'

theorem resumed_of_run {c₀ : HttpConn} {ls : List (List UInt8 × Outcome)}
    (h : Run Call c₀.init ls c) : Resumed c :=
  h.invariant (fun _ _ _ hs ha => (hs.read ha.1).returns ha.2) (Resumed.init c₀)

/-- A chunk that is a request line without its line end is a request of its own. -/
theorem run_pendingLine {c₀ : HttpConn} {chunk : List UInt8} (hread : (c₀.init.read chunk).1 = true)
    (hout : (c₀.init.receive chunk).RunsOut)
    (hacc : (c₀.init.receive chunk).pendingLine.1 ≠ .badRequest) :
    Run Call c₀.init [(chunk, .doRequest)] (c₀.init.receive chunk).pendingLine.2 := by
  refine .single ⟨hread, ?_⟩
  rw [(read_eq hread).1]
  exact (returns_runsOut ((Clear.init c₀).receive _) rfl rfl hout hacc).2 rfl

theorem Entered.resumed {c₀ : HttpConn} {received : List (List UInt8)}
    (h : Entered c₀ received c) : Resumed c := by
  obtain ⟨ls, chunk, c₁, -, hrun, hread, rfl⟩ := h
  exact (resumed_of_run hrun).read hread

end SocketTest.Http.HttpConn
