import SocketTest.Http.Calls

/-!
# Termination of `process_read`

`parse_line` leaves `m_checked_idx` where it is when it finds no line, so a round that neither takes a
line nor ends the loop is repeated for ever. `Spins` says when that happens, in each of the three
states; `returns_iff` shows that it is the only way not to return.
-/

namespace SocketTest.Http.HttpConn

open SocketTest.Lib

variable {c c' : HttpConn} {o : Outcome} {s : LineStatus} {r : Outcome × HttpConn}

/-- One call of `parse_line` while the body is read, the text before it dropped. -/
def afterLine (c : HttpConn) : HttpConn := c.parseLine.2.nextLine

/-- Behind some complete lines comes an LF without a CR, and at none of these places does the body
count as read. -/
def BareLFInBody (c : HttpConn) : Prop :=
  ∃ n, (∀ m < n, (afterLine^[m] c).parseLine.1 = .ok) ∧ (afterLine^[n] c).parseLine.1 = .bad ∧
    ∀ m ≤ n, (afterLine^[m + 1] c).bodyRead = false

/-- `process_read` does not return from here:
* an accepted request line with a CR that came last or an LF without a CR behind it,
* a header line with one of these behind it; the empty line, with an LF without a CR behind it while
  a body is due,
* a body that is not read yet, as in `BareLFInBody`. -/
def Spins (c : HttpConn) : Prop :=
  match c.checkState with
  | .requestLine => c.StopsShort ∧ c.pendingLine.1 ≠ .badRequest
  | .header =>
    if c.readBuf c.startLine = NUL then
      c.parseLine.1 = .bad ∧ c.contentLength ≠ 0 ∧ c.parseLine.2.bodyRead = false
    else c.StopsShort
  | .content => c.bodyRead = false ∧ c.nextLine.BareLFInBody

/-! ## The body -/

theorem bareLFInBody_bad (h : c.parseLine.1 = .bad) :
    BareLFInBody c ↔ c.afterLine.bodyRead = false := by
  constructor
  · rintro ⟨n, -, -, hb⟩
    exact hb 0 (Nat.zero_le n)
  · intro hb
    refine ⟨0, fun m hm => absurd hm (Nat.not_lt_zero m), h, fun m hm => ?_⟩
    rw [Nat.le_zero.1 hm]
    exact hb

theorem bareLFInBody_ok (h : c.parseLine.1 = .ok) :
    BareLFInBody c ↔ c.afterLine.bodyRead = false ∧ BareLFInBody c.afterLine := by
  constructor
  · rintro ⟨n, hok, hbad, hb⟩
    cases n with
    | zero =>
      rw [Function.iterate_zero_apply, h] at hbad
      cases hbad
    | succ n =>
      exact ⟨hb 0 (Nat.zero_le _), n, fun m hm => hok (m + 1) (by omega), hbad,
        fun m hm => hb (m + 1) (by omega)⟩
  · rintro ⟨h0, n, hok, hbad, hb⟩
    refine ⟨n + 1, ?_, hbad, ?_⟩
    · rintro (_ | m) hm
      · exact h
      · exact hok m (by omega)
    · rintro (_ | m) hm
      · exact h0
      · exact hb m (by omega)

theorem not_bareLFInBody_opened (h : c.parseLine.1 = .opened) : ¬ BareLFInBody c := by
  rintro ⟨n, hok, hbad, -⟩
  cases n with
  | zero =>
    rw [Function.iterate_zero_apply, h] at hbad
    cases hbad
  | succ n =>
    have h0 := hok 0 (Nat.succ_pos n)
    rw [Function.iterate_zero_apply, h] at h0
    cases h0

/-- At an LF without a CR the loop stays, unless the body counts as read. -/
theorem not_ends_bareLF (hst : c.checkState = .content) (hs : Stops c .bad)
    (hstart : c.startLine = c.checkedIdx) (hb : c.bodyRead = false) :
    ¬ Loop.Ends processRound (c, .opened) r := by
  have hl : c.parseLine = (.bad, c) := parseLine_of_stops hs
  apply Loop.not_ends (I := fun x => x = (c, .opened)) _ rfl
  rintro _ rfl
  refine ⟨(c, .opened), ?_, rfl⟩
  have hcond : c.loopCond .opened = (true, c) := by
    rw [loopCond_of_ne (.inr (by simp)) (by rw [hl]; simp), hl]
  rw [round_body hcond hst, if_neg (by rw [hb]; simp), nextLine_eq_self hstart]

theorem round_afterLine (hst : c.checkState = .content) (hl : c.parseLine.1 ≠ .opened) :
    (∃ r, Loop.Ends processRound (c, .opened) r) ↔
      (c.afterLine.bodyRead = false → ∃ r, Loop.Ends processRound (c.afterLine, .opened) r) := by
  have hround := round_body (loopCond_of_ne (.inr (by simp)) hl)
    ((parseLine_checkState c).trans hst)
  have hread : c.afterLine.bodyRead = c.parseLine.2.bodyRead := rfl
  rw [hread]
  by_cases hb : c.parseLine.2.bodyRead
  · rw [if_pos hb] at hround
    simp only [hb, Bool.true_eq_false, false_implies, iff_true]
    exact ⟨_, (Loop.ends_exit hround).2 rfl⟩
  · rw [if_neg hb] at hround
    simp only [hb, forall_const]
    exact exists_congr fun r => Loop.ends_round hround

theorem body_ends_iff (hst : c.checkState = .content) (hle : c.checkedIdx ≤ c.readIdx) :
    (∃ r, Loop.Ends processRound (c, .opened) r) ↔ ¬ BareLFInBody c := by
  induction hn : c.readIdx - c.checkedIdx using Nat.strong_induction_on generalizing c with
  | h n ih =>
    cases hl : c.parseLine.1 with
    | opened =>
      have hend := round_line (s := .opened) (.inr (by simp)) hl
      exact iff_of_true ⟨_, (Loop.ends_exit hend).2 rfl⟩ (not_bareLFInBody_opened hl)
    | bad =>
      have hst' : c.afterLine.checkState = .content := (parseLine_checkState c).trans hst
      obtain ⟨hs, -⟩ := parseLine_stops hle (by rw [hl]; simp)
      rw [round_afterLine hst (by rw [hl]; simp), bareLFInBody_bad hl]
      constructor
      · intro hr hb
        obtain ⟨r, hr⟩ := hr hb
        exact not_ends_bareLF hst' (hl ▸ hs).nextLine rfl hb hr
      · intro hb h
        exact absurd h hb
    | ok =>
      have hst' : c.afterLine.checkState = .content := (parseLine_checkState c).trans hst
      have hlt := parseLine_checked_lt hle hl
      have hle' := parseLine_checked_le hle
      have hr : c.afterLine.readIdx = c.readIdx := parseLine_readIdx c
      have hc : c.afterLine.checkedIdx = c.parseLine.2.checkedIdx := rfl
      rw [round_afterLine hst (by rw [hl]; simp), bareLFInBody_ok hl,
        ih (c.afterLine.readIdx - c.afterLine.checkedIdx) (by omega) hst' (by omega) rfl]
      tauto

/-! ## The three states -/

theorem returns_iff_content (hst : c.checkState = .content) (hle : c.checkedIdx ≤ c.readIdx) :
    (∃ o c', Returns c o c') ↔ ¬ (c.bodyRead = false ∧ c.nextLine.BareLFInBody) := by
  have hcond : c.loopCond .ok = (true, c) := by rw [loopCond, if_pos ⟨hst, rfl⟩]
  have hround := round_body hcond hst
  by_cases hb : c.bodyRead
  · rw [if_pos hb] at hround
    exact iff_of_true ⟨_, _, (Loop.ends_exit hround).2 rfl⟩ (by simp [hb])
  · rw [if_neg hb] at hround
    have hiff := body_ends_iff (c := c.nextLine) hst hle
    simp only [hb, true_and]
    rw [← hiff]
    constructor
    · rintro ⟨o, c', hr⟩
      exact ⟨(o, c'), (Loop.ends_round hround).1 hr⟩
    · rintro ⟨⟨o, c'⟩, hr⟩
      exact ⟨o, c', (Loop.ends_round hround).2 hr⟩

/-- The body is due where the scan has stopped. -/
theorem returns_iff_content_rest (hst : c.checkState = .content) (hle : c.checkedIdx ≤ c.readIdx)
    (hs : Stops c s) (hstart : c.startLine = c.checkedIdx) :
    (∃ o c', Returns c o c') ↔ ¬ (s = .bad ∧ c.bodyRead = false) := by
  have hl : c.parseLine = (s, c) := parseLine_of_stops hs
  rw [returns_iff_content hst hle, nextLine_eq_self hstart]
  cases s with
  | ok => exact absurd rfl hs.ne_ok
  | opened => simp [not_bareLFInBody_opened (congrArg Prod.fst hl)]
  | bad =>
    have hafter : c.afterLine = c := by rw [afterLine, hl, nextLine_eq_self hstart]
    rw [bareLFInBody_bad (congrArg Prod.fst hl), hafter]
    simp

theorem exists_returns_next (h : processRound (c, .ok) = .inr (c', .ok)) :
    (∃ o d, Returns c o d) ↔ ∃ o d, Returns c' o d :=
  exists_congr fun _ => exists_congr fun _ => Loop.ends_round h

/-- The scan stops behind the empty line. -/
theorem returns_iff_emptyLine (hc : Clear c) (hst : c.checkState = .header)
    (hl : c.parseLine.1 ≠ .ok) (hnul : c.readBuf c.startLine = NUL) :
    (∃ o c', Returns c o c') ↔
      ¬ (c.parseLine.1 = .bad ∧ c.contentLength ≠ 0 ∧ c.parseLine.2.bodyRead = false) := by
  obtain ⟨hs, hmove⟩ := parseLine_stops hc.checked_le hl
  have hnul' : c.parseLine.2.nextLine.readBuf c.startLine = NUL := by
    rw [hmove]
    exact hnul
  have hlen : c.parseLine.2.nextLine.contentLength = c.contentLength := parseLine_contentLength c
  by_cases h0 : c.contentLength = 0
  · have hround := round_header_get hst hl (parseHeaders_get hnul' (hlen.trans h0))
    exact iff_of_true ⟨_, _, (Loop.ends_exit hround).2 rfl⟩ (fun h => h.2.1 h0)
  · have hround := round_header_next hst hl (parseHeaders_body hnul' (hlen ▸ h0))
    have hc' := hc.parseLine.nextLine.same (SameScan.toContent _)
    have hs' := hs.nextLine.same (SameScan.toContent _)
    have hread : c.parseLine.2.nextLine.toContent.bodyRead = c.parseLine.2.bodyRead := rfl
    rw [exists_returns_next hround, returns_iff_content_rest rfl hc'.checked_le hs' rfl, hread]
    tauto

/-- The scan stops behind a header line, or behind the request line of a call before. -/
theorem returns_iff_headerLine (hc : Clear c) (hst : c.checkState = .header)
    (hl : c.parseLine.1 ≠ .ok) (hnul : c.readBuf c.startLine ≠ NUL) :
    (∃ o c', Returns c o c') ↔ ¬ c.StopsShort := by
  obtain ⟨hs, hmove⟩ := parseLine_stops hc.checked_le hl
  have hnul' : c.parseLine.2.nextLine.readBuf c.startLine ≠ NUL := by
    rw [hmove]
    exact hnul
  obtain ⟨d, hline, hsame, hst'⟩ := parseHeaders_line hnul'
  have hc' : Clear d := hc.parseLine.nextLine.same hsame
  have hs' : Stops d c.parseLine.1 := hs.nextLine.same hsame
  have hchecked : d.checkedIdx = c.parseLine.2.checkedIdx := hsame.checkedIdx
  have hstart : d.startLine = d.checkedIdx := hsame.startLine.trans hchecked.symm
  have hread : d.readIdx = c.readIdx := hsame.readIdx.trans (parseLine_readIdx c)
  replace hst' : d.checkState = .header := hst'.trans ((parseLine_checkState c).trans hst)
  rw [exists_returns_next (round_header_next hst hl hline)]
  rcases runsOut_or_stopsShort hc.checked_le hl with hout | hshort
  · have hnot : ¬ c.StopsShort := fun h => absurd hout.2 (Nat.ne_of_lt h.2)
    have hend : d.checkedIdx = d.readIdx := by rw [hchecked, hread, hout.2]
    have hround := round_rest hc' hst' hs' hstart hend
    apply iff_of_true _ hnot
    by_cases h0 : d.contentLength = 0
    · rw [if_pos h0] at hround
      exact ⟨_, _, (Loop.ends_exit hround).2 rfl⟩
    · rw [if_neg h0] at hround
      have hopened : Stops d.toContent .opened := .atEnd hend
      rw [exists_returns_next hround,
        returns_iff_content_rest (c := d.toContent) rfl (Nat.le_of_eq hend) hopened hstart]
      simp
  · apply iff_of_false _ (not_not.2 hshort)
    rintro ⟨o, c', hr⟩
    exact not_ends_rest hst' hs' hstart (by rw [hchecked, hread]; exact hshort.2) hr

theorem returns_iff (hc : Resumed c) : (∃ o c', Returns c o c') ↔ ¬ Spins c := by
  unfold Spins
  cases hst : c.checkState with
  | requestLine =>
    by_cases hl : c.parseLine.1 = .ok
    · exact iff_of_true ⟨_, _, (returns_line (by rw [hst]; simp) hl).2 rfl⟩ (fun h => h.1.1 hl)
    by_cases hacc : c.pendingLine.1 = .badRequest
    · exact iff_of_true ⟨_, _, (returns_rejected hst hl hacc).2 rfl⟩ (fun h => h.2 hacc)
    · rcases runsOut_or_stopsShort hc.clear.checked_le hl with hout | hshort
      · have hret := (returns_runsOut hc.clear hst (hc.contentLength hst) hout hacc).2 rfl
        exact iff_of_true ⟨_, _, hret⟩ (fun h => absurd hout.2 (Nat.ne_of_lt h.1.2))
      · apply iff_of_false _ (not_not.2 ⟨hshort, hacc⟩)
        rintro ⟨o, c', hr⟩
        exact not_returns_stopsShort hc.clear.checked_le hst hshort hacc hr
  | header =>
    by_cases hl : c.parseLine.1 = .ok
    · apply iff_of_true ⟨_, _, (returns_line (by rw [hst]; simp) hl).2 rfl⟩
      dsimp only
      split_ifs
      · simp [hl]
      · exact fun h => h.1 hl
    · dsimp only
      split_ifs with hnul
      · exact returns_iff_emptyLine hc.clear hst hl hnul
      · exact returns_iff_headerLine hc.clear hst hl hnul
  | content => exact returns_iff_content hst hc.clear.checked_le

/-! ## Runs -/

/-- Every call of a run returns exactly when no call is entered in a state that spins. -/
theorem process_read_returns_iff (c₀ : HttpConn) (chunks : List (List UInt8)) :
    (∀ received c, received <+: chunks → Entered c₀ received c → ∃ o c', Returns c o c') ↔
      ∀ received c, received <+: chunks → Entered c₀ received c → ¬ Spins c := by
  apply forall₂_congr
  intro received c
  apply forall₂_congr
  intro _ hc
  exact returns_iff hc.resumed

/-- A request whose last CR LF is cut: the request line is accepted behind its end and the CR, which
is no header, is taken for ever. -/
theorem process_read_stuck : ¬ ∀ (c₀ : HttpConn) (received : List (List UInt8)) (c : HttpConn),
    Entered c₀ received c → ∃ o c', Returns c o c' := by
  intro h
  let first := bytes "GET / HTTP/1.1\r\n"
  let c₁ := (unused.init.receive first).parseLine.2
  have hcall : Call unused.init (first, .code .noRequest) c₁ := by
    refine ⟨by decide, ?_⟩
    rw [(read_eq (by decide)).1]
    exact (returns_line (by decide) (by decide)).2 rfl
  have hin : Entered unused [first, [CR]] (c₁.receive [CR]) :=
    ⟨[_], [CR], c₁, rfl, .single hcall, by decide, (read_eq (by decide)).1.symm⟩
  obtain ⟨o, c', hr⟩ := h unused _ _ hin
  exact not_returns_stopsShort hin.resumed.clear.checked_le rfl ⟨by decide, by decide⟩ (by decide) hr

end SocketTest.Http.HttpConn
