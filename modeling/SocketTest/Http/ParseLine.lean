import SocketTest.Http.Parse

/-!
# `parse_line`

`parseLine_spec` says what a call does: it takes a line, its CR LF replaced by two NUL, or it stops
at a position that it cannot pass and changes nothing but `m_checked_idx`. A call from where the last
one stopped stops there again (`parseLine_of_stops`); this is what the loop of `process_read` does
with a line that is not complete.
-/

namespace SocketTest.Http.HttpConn

open SocketTest.Lib

variable {c c' : HttpConn} {i n : ℕ} {s : LineStatus}

/-- `m_checked_idx` moved to `i`. -/
@[simps checkedIdx readIdx] def moveTo (c : HttpConn) (i : ℕ) : HttpConn := { c with checkedIdx := i }

/-- The line that ends with the CR LF at `i` is taken. -/
@[simps checkedIdx readBuf] def takeLine (c : HttpConn) (i : ℕ) : HttpConn :=
  { c with
    readBuf := Function.update (Function.update c.readBuf i NUL) (i + 1) NUL
    checkedIdx := i + 2 }

@[simp] theorem moveTo_moveTo (c : HttpConn) (i j : ℕ) : (c.moveTo i).moveTo j = c.moveTo j := rfl

@[simp] theorem moveTo_takeLine (c : HttpConn) (i j : ℕ) :
    (c.moveTo i).takeLine j = c.takeLine j := rfl

/-- What keeps `parse_line` from going on at `m_checked_idx`. -/
inductive Stops (c : HttpConn) : LineStatus → Prop
  | atEnd : c.checkedIdx = c.readIdx → Stops c .opened
  | trailingCR : c.checkedIdx + 1 = c.readIdx → c.readBuf c.checkedIdx = CR → Stops c .opened
  | bareLF : c.checkedIdx < c.readIdx → c.readBuf c.checkedIdx = LF →
      ¬ (1 < c.checkedIdx ∧ c.readBuf (c.checkedIdx - 1) = CR) → Stops c .bad

/-- The result of `parse_line`. The CR of the line taken may stand right before `m_checked_idx`. -/
inductive Parsed (c : HttpConn) : LineStatus × HttpConn → Prop
  | stopped {i : ℕ} {s : LineStatus} :
      c.checkedIdx ≤ i → i ≤ c.readIdx → (∀ k, c.checkedIdx ≤ k → k < i → c.readBuf k ≠ LF) →
      Stops (c.moveTo i) s → Parsed c (s, c.moveTo i)
  | line {i : ℕ} :
      c.checkedIdx ≤ i + 1 → i + 2 ≤ c.readIdx → c.readBuf i = CR → c.readBuf (i + 1) = LF →
      Parsed c (.ok, c.takeLine i)

theorem Parsed.step {r : LineStatus × HttpConn} (hLF : c.readBuf c.checkedIdx ≠ LF)
    (h : Parsed (c.moveTo (c.checkedIdx + 1)) r) : Parsed c r := by
  cases h with
  | @stopped i s h1 h2 h3 h4 =>
    rw [moveTo_checkedIdx] at h1
    rw [moveTo_readIdx] at h2
    rw [moveTo_moveTo] at h4 ⊢
    apply Parsed.stopped (by omega) h2 _ h4
    intro k hk1 hk2
    rcases Nat.eq_or_lt_of_le hk1 with h | h
    · rw [← h]
      exact hLF
    · exact h3 k h hk2
  | @line i h1 h2 h3 h4 =>
    rw [moveTo_checkedIdx] at h1
    rw [moveTo_takeLine]
    exact .line (by omega) h2 h3 h4

theorem LF_ne_CR : LF ≠ CR := by decide

theorem parseLineLoop_parsed (hn : c.checkedIdx + n = c.readIdx) : Parsed c (parseLineLoop n c) := by
  induction n generalizing c with
  | zero =>
    have hs : Stops (c.moveTo c.checkedIdx) .opened := .atEnd (by simpa using hn)
    exact .stopped le_rfl (by omega) (fun k _ _ => by omega) hs
  | succ n ih =>
    have hlt : c.checkedIdx < c.readIdx := by omega
    have hnext : c.readBuf c.checkedIdx ≠ LF →
        Parsed c (parseLineLoop n (c.moveTo (c.checkedIdx + 1))) := by
      intro hLF
      apply Parsed.step hLF
      apply ih
      simp only [moveTo_checkedIdx, moveTo_readIdx]
      omega
    rw [parseLineLoop]
    by_cases hCR : c.readBuf c.checkedIdx = CR
    · rw [if_pos hCR]
      by_cases hend : c.checkedIdx + 1 = c.readIdx
      · rw [if_pos hend]
        exact .stopped le_rfl (by omega) (fun k _ _ => by omega) (.trailingCR hend hCR)
      · rw [if_neg hend]
        by_cases hLF : c.readBuf (c.checkedIdx + 1) = LF
        · rw [if_pos hLF]
          exact .line (by omega) (by omega) hCR hLF
        · rw [if_neg hLF]
          exact hnext (hCR ▸ LF_ne_CR.symm)
    · rw [if_neg hCR]
      by_cases hLF : c.readBuf c.checkedIdx = LF
      · rw [if_pos hLF]
        by_cases hb : 1 < c.checkedIdx ∧ c.readBuf (c.checkedIdx - 1) = CR
        · rw [if_pos hb]
          -- the CR was left at the end of the bytes received before
          obtain ⟨i, hi⟩ : ∃ i, c.checkedIdx = i + 1 := ⟨c.checkedIdx - 1, by omega⟩
          rw [hi, Nat.add_sub_cancel] at hb ⊢
          rw [hi] at hLF
          exact .line (by omega) (by omega) hb.2 hLF
        · rw [if_neg hb]
          exact .stopped le_rfl (by omega) (fun k _ _ => by omega) (.bareLF hlt hLF hb)
      · rw [if_neg hLF]
        exact hnext hLF

theorem parseLine_spec (h : c.checkedIdx ≤ c.readIdx) : Parsed c c.parseLine :=
  parseLineLoop_parsed (by omega)

theorem parseLine_of_stops (h : Stops c s) : c.parseLine = (s, c) := by
  unfold parseLine
  cases h with
  | atEnd h =>
    rw [h, Nat.sub_self]
    rfl
  | trailingCR h hCR =>
    rw [show c.readIdx - c.checkedIdx = 0 + 1 by omega, parseLineLoop, if_pos hCR, if_pos h]
  | bareLF h hLF hb =>
    obtain ⟨n, hn⟩ : ∃ n, c.readIdx - c.checkedIdx = n + 1 := ⟨c.readIdx - c.checkedIdx - 1, by omega⟩
    rw [hn, parseLineLoop, if_neg (hLF ▸ LF_ne_CR), if_pos hLF, if_neg hb]

theorem Stops.ne_ok (h : Stops c s) : s ≠ .ok := by
  cases h <;> simp

theorem parseLineLoop_frame (n : ℕ) (c : HttpConn) : ∃ buf i,
    (parseLineLoop n c).2 = { c with readBuf := buf, checkedIdx := i } := by
  induction n generalizing c with
  | zero => exact ⟨_, _, rfl⟩
  | succ n ih =>
    obtain ⟨buf, i, h⟩ := ih (c.moveTo (c.checkedIdx + 1))
    have hnext : ∃ buf i, (parseLineLoop n (c.moveTo (c.checkedIdx + 1))).2
        = { c with readBuf := buf, checkedIdx := i } := ⟨buf, i, h⟩
    rw [parseLineLoop]
    split_ifs
    · exact ⟨_, _, rfl⟩
    · exact ⟨_, _, rfl⟩
    · exact hnext
    · exact ⟨_, _, rfl⟩
    · exact ⟨_, _, rfl⟩
    · exact hnext

theorem parseLine_frame (c : HttpConn) : ∃ buf i,
    c.parseLine.2 = { c with readBuf := buf, checkedIdx := i } := parseLineLoop_frame _ c

@[simp] theorem parseLine_readIdx (c : HttpConn) : c.parseLine.2.readIdx = c.readIdx := by
  obtain ⟨buf, i, h⟩ := parseLine_frame c
  rw [h]

@[simp] theorem parseLine_startLine (c : HttpConn) : c.parseLine.2.startLine = c.startLine := by
  obtain ⟨buf, i, h⟩ := parseLine_frame c
  rw [h]

@[simp] theorem parseLine_checkState (c : HttpConn) : c.parseLine.2.checkState = c.checkState := by
  obtain ⟨buf, i, h⟩ := parseLine_frame c
  rw [h]

@[simp] theorem parseLine_contentLength (c : HttpConn) :
    c.parseLine.2.contentLength = c.contentLength := by
  obtain ⟨buf, i, h⟩ := parseLine_frame c
  rw [h]

@[simp] theorem parseLine_writeIdx (c : HttpConn) : c.parseLine.2.writeIdx = c.writeIdx := by
  obtain ⟨buf, i, h⟩ := parseLine_frame c
  rw [h]

/-- Without a line, `parse_line` stops and the next call stops at the same place. -/
theorem parseLine_stops (h : c.checkedIdx ≤ c.readIdx) (hok : c.parseLine.1 ≠ .ok) :
    Stops c.parseLine.2 c.parseLine.1 ∧ c.parseLine.2 = c.moveTo c.parseLine.2.checkedIdx := by
  have hp := parseLine_spec h
  generalize c.parseLine = r at hp hok
  cases hp with
  | stopped _ _ _ hs => exact ⟨hs, rfl⟩
  | line => exact absurd rfl hok

theorem parseLine_checked_le (h : c.checkedIdx ≤ c.readIdx) :
    c.parseLine.2.checkedIdx ≤ c.readIdx := by
  have hp := parseLine_spec h
  generalize c.parseLine = r at hp
  cases hp with
  | stopped _ hi _ _ => exact hi
  | line _ hi _ _ => exact hi

theorem le_parseLine_checked (h : c.checkedIdx ≤ c.readIdx) :
    c.checkedIdx ≤ c.parseLine.2.checkedIdx := by
  have hp := parseLine_spec h
  generalize c.parseLine = r at hp
  cases hp with
  | stopped hi _ _ _ => exact hi
  | line hi _ _ _ => exact hi.trans (Nat.le_succ _)

/-- Taking a line moves forward. -/
theorem parseLine_checked_lt (h : c.checkedIdx ≤ c.readIdx) (hok : c.parseLine.1 = .ok) :
    c.checkedIdx < c.parseLine.2.checkedIdx := by
  have hp := parseLine_spec h
  generalize c.parseLine = r at hp hok
  cases hp with
  | stopped _ _ _ hs => exact absurd hok hs.ne_ok
  | line hi _ _ _ =>
    simp only [takeLine_checkedIdx]
    omega

end SocketTest.Http.HttpConn
