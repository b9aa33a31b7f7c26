import SocketTest.Lib.CString

/-!
# The lines of a byte string

Lines end with CR LF; the first LF without a CR in front of it ends the text that can be split. The
definitions look at the whole string `w`. `lineEnds w k` and `cut w k` are what a scan has found and
written once it has come to the position `k`; a scan that has not stopped between a CR and its LF
(`Between`) goes on by one byte (`Between.next`) or by a line end (`Between.line`).
-/

namespace SocketTest.Lib.Crlf

/-- The byte at a position, NUL behind the end. -/
def byte (w : List UInt8) (i : ℕ) : UInt8 := w.getD i NUL

/-- A CR LF is at `i`. -/
def crlfAt (w : List UInt8) (i : ℕ) : Bool := byte w i = CR ∧ byte w (i + 1) = LF

/-- The LF at `i` has no CR in front of it. -/
def bareAt (w : List UInt8) (i : ℕ) : Bool := byte w i = LF ∧ ¬ (0 < i ∧ byte w (i - 1) = CR)

/-- The position of the first bare LF, or the length of a string without one. -/
def limit (w : List UInt8) : ℕ := (List.range w.length).findIdx (bareAt w)

/-- The positions behind the line ends that start before `k`. -/
def lineEnds (w : List UInt8) (k : ℕ) : List ℕ := ((List.range k).filter (crlfAt w)).map (· + 2)

/-- The bytes with both bytes of every line end that starts before `k` replaced by NUL. -/
def cut (w : List UInt8) (k i : ℕ) : UInt8 :=
  if i < k ∧ crlfAt w i ∨ 0 < i ∧ i - 1 < k ∧ crlfAt w (i - 1) then NUL else byte w i

section

variable {w : List UInt8} {k i : ℕ}

theorem crlfAt_iff : crlfAt w i = true ↔ byte w i = CR ∧ byte w (i + 1) = LF := by
  exact decide_eq_true_iff

theorem bareAt_iff : bareAt w i = true ↔ byte w i = LF ∧ ¬ (0 < i ∧ byte w (i - 1) = CR) := by
  exact decide_eq_true_iff

theorem byte_eq_nul (h : w.length ≤ i) : byte w i = NUL := List.getD_eq_default _ _ h

theorem lt_of_byte_ne (h : byte w i ≠ NUL) : i < w.length := by
  by_contra hle
  exact h (byte_eq_nul (not_lt.mp hle))

theorem crlfAt_lt (h : crlfAt w i = true) : i + 1 < w.length :=
  lt_of_byte_ne (by rw [(crlfAt_iff.mp h).2]; decide)

theorem bareAt_lt (h : bareAt w i = true) : i < w.length :=
  lt_of_byte_ne (by rw [(bareAt_iff.mp h).1]; decide)

/-- The first bare LF is the limit. -/
theorem limit_eq_of_bare (hk : bareAt w k = true) (hb : ∀ i < k, bareAt w i = false) :
    limit w = k := by
  have hlt := bareAt_lt hk
  unfold limit
  rw [List.findIdx_eq (by simpa using hlt)]
  simpa using ⟨hk, hb⟩

theorem limit_eq_length (hb : ∀ i < w.length, bareAt w i = false) : limit w = w.length := by
  have h : limit w = (List.range w.length).length :=
    List.findIdx_eq_length.mpr fun i hi => hb i (List.mem_range.mp hi)
  rwa [List.length_range] at h

theorem lineEnds_succ (h : crlfAt w k = false) : lineEnds w (k + 1) = lineEnds w k := by
  unfold lineEnds
  rw [List.range_succ, List.filter_append, List.filter_singleton, h]
  simp

theorem lineEnds_line (h : crlfAt w k = true) : lineEnds w (k + 1) = lineEnds w k ++ [k + 2] := by
  unfold lineEnds
  rw [List.range_succ, List.filter_append, List.filter_singleton, h]
  simp

theorem cut_succ (h : crlfAt w k = false) (i : ℕ) : cut w (k + 1) i = cut w k i := by
  have hlt : ∀ j, j < k + 1 ∧ crlfAt w j = true ↔ j < k ∧ crlfAt w j = true := by
    intro j
    constructor
    · rintro ⟨hj, hat⟩
      refine ⟨lt_of_le_of_ne (Nat.lt_succ_iff.mp hj) fun he => ?_, hat⟩
      rw [he, h] at hat
      cases hat
    · exact fun hj => ⟨hj.1.trans (Nat.lt_succ_self k), hj.2⟩
  exact if_congr (or_congr (hlt i) (and_congr_right fun _ => hlt (i - 1))) rfl rfl

theorem cut_line (h : crlfAt w k = true) :
    cut w (k + 1) = Function.update (Function.update (cut w k) k NUL) (k + 1) NUL := by
  funext i
  by_cases h1 : i = k + 1
  · rw [h1, Function.update_self, cut, if_pos]
    exact Or.inr ⟨Nat.succ_pos k, by omega, h⟩
  rw [Function.update_of_ne h1]
  by_cases h0 : i = k
  · rw [h0, Function.update_self, cut, if_pos (Or.inl ⟨Nat.lt_succ_self k, h⟩)]
  rw [Function.update_of_ne h0]
  refine if_congr (or_congr (and_congr_left fun _ => ?_) (and_congr_right fun hi =>
    and_congr_left fun _ => ?_)) rfl rfl
  · omega
  · omega

/-- No bare LF stands before `k`, and `k` is not between a CR and its LF. -/
structure Between (w : List UInt8) (k : ℕ) : Prop where
  bare : ∀ i < k, bareAt w i = false
  whole : ∀ i < k, crlfAt w i = true → i + 1 < k

theorem Between.zero (w : List UInt8) : Between w 0 :=
  ⟨fun _ h => absurd h (Nat.not_lt_zero _), fun _ h => absurd h (Nat.not_lt_zero _)⟩

/-- The scan passes a byte that is no LF and starts no line end. -/
theorem Between.next (b : Between w k) (hLF : byte w k ≠ LF) (hat : crlfAt w k = false) :
    Between w (k + 1) := by
  constructor
  · intro i hi
    rcases Nat.lt_succ_iff_lt_or_eq.mp hi with hi | rfl
    · exact b.bare i hi
    · rw [← Bool.not_eq_true, bareAt_iff]
      exact fun h => hLF h.1
  · intro i hi h
    rcases Nat.lt_succ_iff_lt_or_eq.mp hi with hi | rfl
    · exact (b.whole i hi h).trans (Nat.lt_succ_self k)
    · rw [hat] at h
      cases h

/-- The LF of a line end starts no line end. -/
theorem crlfAt_succ (h : crlfAt w k = true) : crlfAt w (k + 1) = false := by
  rw [← Bool.not_eq_true, crlfAt_iff, (crlfAt_iff.mp h).2]
  exact fun hc => absurd hc.1 (by decide)

/-- The scan passes a line end. -/
theorem Between.line (b : Between w k) (h : crlfAt w k = true) : Between w (k + 2) := by
  have hb := crlfAt_iff.mp h
  constructor
  · intro i hi
    rw [← Bool.not_eq_true, bareAt_iff]
    rcases Nat.lt_succ_iff_lt_or_eq.mp hi with hi | rfl
    · rcases Nat.lt_succ_iff_lt_or_eq.mp hi with hi | rfl
      · rw [← bareAt_iff, b.bare i hi]
        simp
      · rw [hb.1]
        exact fun hc => absurd hc.1 (by decide)
    · exact fun hc => hc.2 ⟨Nat.succ_pos k, hb.1⟩
  · intro i hi hat
    rcases Nat.lt_succ_iff_lt_or_eq.mp hi with hi | rfl
    · omega
    · rw [crlfAt_succ h] at hat
      cases hat

/-- At a position that is not inside a line end, an LF is a bare one. -/
theorem Between.bare_of_LF (b : Between w k) (h : byte w k = LF) : bareAt w k = true := by
  rw [bareAt_iff]
  refine ⟨h, fun hc => ?_⟩
  have := b.whole (k - 1) (by omega) (crlfAt_iff.mpr ⟨hc.2, by rwa [Nat.sub_add_cancel hc.1]⟩)
  omega

/-- What the scan has not come to is as it was. -/
theorem Between.cut_eq (b : Between w k) (hi : k ≤ i) : cut w k i = byte w i := by
  unfold cut
  rw [if_neg]
  rintro (⟨hlt, -⟩ | ⟨h0, hlt, hat⟩)
  · omega
  · have := b.whole _ hlt hat
    omega

end

end SocketTest.Lib.Crlf
