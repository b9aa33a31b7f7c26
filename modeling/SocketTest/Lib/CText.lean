import SocketTest.Lib.CString

/-!
# The string at a position

`StringAt buf p s` says that `s` is the C string at `p`. The scans of the C library come to a place in
`s` that its text alone determines; a NUL written over a byte of `s` leaves the text in front of it as
one string and the text behind it as another.
-/

namespace SocketTest.Lib

/-- The C string at `p` is `s`. -/
def StringAt (buf : Buf) : ℕ → List UInt8 → Prop
  | p, [] => buf p = NUL
  | p, b :: s => buf p = b ∧ b ≠ NUL ∧ StringAt buf (p + 1) s

instance decidableStringAt (buf : Buf) : (p : ℕ) → (s : List UInt8) → Decidable (StringAt buf p s)
  | p, [] => inferInstanceAs (Decidable (buf p = NUL))
  | p, b :: s =>
    have := decidableStringAt buf (p + 1) s
    inferInstanceAs (Decidable (buf p = b ∧ b ≠ NUL ∧ StringAt buf (p + 1) s))

namespace StringAt

variable {buf buf' : Buf} {n p : ℕ} {s t accept : List UInt8} {b c : UInt8}

theorem ne_nul (h : StringAt buf p s) : ∀ b ∈ s, b ≠ NUL := by
  induction s generalizing p with
  | nil => exact fun b hb => absurd hb List.not_mem_nil
  | cons a s ih =>
    intro b hb
    rcases List.mem_cons.1 hb with rfl | hb
    · exact h.2.1
    · exact ih h.2.2 b hb

theorem append (h : StringAt buf p (s ++ t)) : StringAt buf (p + s.length) t := by
  induction s generalizing p with
  | nil => exact h
  | cons a s ih =>
    have := ih h.2.2
    rwa [Nat.add_right_comm] at this

theorem congr (h : StringAt buf p s) (hb : ∀ i, p ≤ i → i ≤ p + s.length → buf' i = buf i) :
    StringAt buf' p s := by
  induction s generalizing p with
  | nil => exact (hb p le_rfl le_rfl).trans h
  | cons a s ih =>
    refine ⟨(hb p le_rfl (by omega)).trans h.1, h.2.1, ih h.2.2 fun i hi hle => ?_⟩
    exact hb i (by omega) (by rw [List.length_cons]; omega)

theorem cstring (h : StringAt buf p s) (hn : s.length ≤ n) : cstring n buf p = s := by
  induction s generalizing n p with
  | nil => exact cstring_nil h
  | cons b s ih =>
    cases n with
    | zero => exact absurd hn (Nat.not_succ_le_zero _)
    | succ n =>
      have hcons : contents buf p (n + 1) = b :: contents buf (p + 1) n := by
        rw [Nat.add_comm, contents_add, ← h.1]
        rfl
      have htail := ih h.2.2 (by simpa using hn)
      rw [Lib.cstring] at htail ⊢
      rw [hcons, List.takeWhile_cons_of_pos (by simpa using h.2.1), htail]

/-- A byte of the string, and the end of the string. -/
theorem getD (h : StringAt buf p (s ++ t)) : buf (p + s.length) = t.headD NUL := by
  have ht := h.append
  cases t with
  | nil => exact ht
  | cons b t => exact ht.1

theorem put_left (h : StringAt buf p (s ++ t)) :
    StringAt (Function.update buf (p + s.length) NUL) p s := by
  induction s generalizing p with
  | nil => exact Function.update_self _ _ _
  | cons a s ih =>
    have := ih h.2.2
    rw [Nat.add_right_comm] at this
    refine ⟨?_, h.2.1, this⟩
    rw [Function.update_of_ne (by simp)]
    exact h.1

theorem put_right (h : StringAt buf p (s ++ b :: t)) :
    StringAt (Function.update buf (p + s.length) NUL) (p + s.length + 1) t := by
  apply h.append.2.2.congr
  intro i hi _
  exact Function.update_of_ne (by omega) _ _

/-! ## Scans -/

theorem span {P : UInt8 → Bool} (h : StringAt buf p (s ++ t)) (hn : s.length ≤ n)
    (hs : ∀ b ∈ s, P b = true) (ht : P (t.headD NUL) = false) :
    span P buf n p = p + s.length := by
  induction s generalizing n p with
  | nil =>
    cases n with
    | zero => rfl
    | succ n =>
      have hp : buf p = t.headD NUL := h.getD
      rw [Lib.span, hp, ht]
      rfl
  | cons a s ih =>
    cases n with
    | zero => exact absurd hn (Nat.not_succ_le_zero _)
    | succ n =>
      have hP : P (buf p) = true := by
        rw [h.1]
        exact hs a List.mem_cons_self
      rw [Lib.span, hP, if_pos rfl, ih h.2.2 (by simpa using hn) fun b hb =>
        hs b (List.mem_cons_of_mem _ hb), List.length_cons, Nat.add_right_comm]
      rfl

theorem strpbrk_some (h : StringAt buf p (s ++ b :: t)) (hn : s.length ≤ n)
    (hs : ∀ c ∈ s, c ∉ accept) (hb : b ∈ accept) : strpbrk n buf p accept = some (p + s.length) := by
  have hspan : Lib.span (fun b => b ≠ NUL ∧ b ∉ accept) buf n p = p + s.length := by
    apply h.span hn
    · intro c hc
      simpa using ⟨h.ne_nul c (List.mem_append_left _ hc), hs c hc⟩
    · simp [hb]
  rw [strpbrk, hspan, if_pos]
  rwa [h.getD]

theorem strpbrk_none (h : StringAt buf p s) (hn : s.length ≤ n) (hs : ∀ c ∈ s, c ∉ accept)
    (hnul : NUL ∉ accept) : strpbrk n buf p accept = none := by
  have h' : StringAt buf p (s ++ []) := by rwa [List.append_nil]
  have hspan : Lib.span (fun b => b ≠ NUL ∧ b ∉ accept) buf n p = p + s.length := by
    apply h'.span hn
    · intro c hc
      simpa using ⟨h.ne_nul c hc, hs c hc⟩
    · simp
  rw [strpbrk, hspan, if_neg]
  rwa [h'.getD]

theorem strspn (h : StringAt buf p (s ++ t)) (hn : s.length ≤ n) (hs : ∀ c ∈ s, c ∈ accept)
    (ht : t.headD NUL ∉ accept) : strspn n buf p accept = p + s.length := by
  apply h.span hn
  · simpa using hs
  · simpa using ht

theorem strchr_some (h : StringAt buf p (s ++ c :: t)) (hn : s.length ≤ n) (hs : c ∉ s) :
    strchr n buf p c = some (p + s.length) := by
  have hspan : Lib.span (fun b => b ≠ NUL ∧ b ≠ c) buf n p = p + s.length := by
    apply h.span hn
    · intro b hb
      simpa using ⟨h.ne_nul b (List.mem_append_left _ hb), ne_of_mem_of_not_mem hb hs⟩
    · simp
  rw [strchr, hspan, if_pos]
  exact h.getD

theorem strchr_none (h : StringAt buf p s) (hn : s.length ≤ n) (hs : c ∉ s) (hc : c ≠ NUL) :
    strchr n buf p c = none := by
  have h' : StringAt buf p (s ++ []) := by rwa [List.append_nil]
  have hspan : Lib.span (fun b => b ≠ NUL ∧ b ≠ c) buf n p = p + s.length := by
    apply h'.span hn
    · intro b hb
      simpa using ⟨h.ne_nul b hb, ne_of_mem_of_not_mem hb hs⟩
    · simp
  rw [strchr, hspan, if_neg]
  rw [h'.getD]
  exact hc.symm

end StringAt

/-- The string in a buffer that has a NUL there. -/
theorem exists_stringAt {buf : Buf} {n p i : ℕ} (hi : i ≤ n) (h : buf (p + i) = NUL) :
    ∃ s, cstring n buf p = s ∧ StringAt buf p s ∧ s.length ≤ n := by
  induction i generalizing n p with
  | zero =>
    have hp : buf p = NUL := h
    exact ⟨[], cstring_nil hp, hp, hi⟩
  | succ i ih =>
    by_cases hp : buf p = NUL
    · exact ⟨[], cstring_nil hp, hp, by rw [List.length_nil]; omega⟩
    · cases n with
      | zero => omega
      | succ n =>
        obtain ⟨s, -, hs, hn⟩ := ih (n := n) (p := p + 1) (by omega)
          (by rwa [show p + 1 + i = p + (i + 1) by omega])
        have hall : StringAt buf p (buf p :: s) := ⟨rfl, hp, hs⟩
        exact ⟨buf p :: s, hall.cstring (Nat.succ_le_succ hn), hall, Nat.succ_le_succ hn⟩

/-! ## Comparison without case -/

/-- The texts differ at most in the case of letters. -/
def CaseEq (s t : List UInt8) : Prop := s.map toLower = t.map toLower

instance decidableCaseEq (s t : List UInt8) : Decidable (CaseEq s t) :=
  inferInstanceAs (Decidable (_ = _))

theorem CaseEq.length {s t : List UInt8} (h : CaseEq s t) : s.length = t.length := by
  simpa using congrArg List.length h

theorem CaseEq.head {s t : List UInt8} (h : CaseEq s t) :
    (s.head?).map toLower = (t.head?).map toLower := by
  rw [← List.head?_map, ← List.head?_map, h]

/-- Below the letters `tolower` changes nothing and gives nothing new. -/
theorem toLower_eq_iff {b c : UInt8} (hc : c < 65) : toLower b = c ↔ b = c := by
  unfold toLower
  split_ifs with h
  · rw [UInt8.le_iff_toNat_le, UInt8.le_iff_toNat_le] at h
    rw [UInt8.lt_iff_toNat_lt] at hc
    rw [← UInt8.toNat_inj, ← UInt8.toNat_inj, UInt8.toNat_add]
    simp only [UInt8.reduceToNat] at h hc ⊢
    omega
  · rfl

/-- The end of a string is no letter of a text. -/
theorem toLower_end_ne {buf : Buf} {p : ℕ} {c : UInt8} {t : List UInt8} (h : StringAt buf p [])
    (ht : NUL ∉ c :: t) : toLower (buf p) ≠ toLower c := by
  have hnul : buf p = NUL := h
  rw [hnul]
  intro he
  exact ht ((toLower_eq_iff (by decide)).1 he.symm ▸ List.mem_cons_self)

theorem strcaseeq_iff {buf : Buf} {p : ℕ} {s t : List UInt8} (h : StringAt buf p s)
    (ht : NUL ∉ t) : strcaseeq buf p t = true ↔ CaseEq s t := by
  induction t generalizing p s with
  | nil =>
    cases s with
    | nil => exact iff_of_true (decide_eq_true h) rfl
    | cons b s =>
      apply iff_of_false
      · intro hp
        exact h.2.1 (h.1.symm.trans (of_decide_eq_true hp))
      · intro hc
        cases hc
  | cons c t ih =>
    have htail : NUL ∉ t := fun hb => ht (List.mem_cons_of_mem _ hb)
    rw [strcaseeq, decide_eq_true_eq]
    cases s with
    | nil =>
      apply iff_of_false
      · exact fun hp => toLower_end_ne h ht hp.1
      · intro hc
        cases hc
    | cons b s => rw [ih h.2.2 htail, h.1, CaseEq, CaseEq, List.map_cons, List.map_cons, List.cons.injEq]

theorem strncaseeq_iff {buf : Buf} {p : ℕ} {s t : List UInt8} (h : StringAt buf p s)
    (ht : NUL ∉ t) : strncaseeq buf p t = true ↔ ∃ u v, s = u ++ v ∧ CaseEq u t := by
  induction t generalizing p s with
  | nil => exact iff_of_true rfl ⟨[], s, rfl, rfl⟩
  | cons c t ih =>
    have htail : NUL ∉ t := fun hb => ht (List.mem_cons_of_mem _ hb)
    rw [strncaseeq, decide_eq_true_eq]
    cases s with
    | nil =>
      apply iff_of_false
      · exact fun hp => toLower_end_ne h ht hp.1
      · rintro ⟨u, v, hs, hc⟩
        rw [(List.append_eq_nil_iff.1 hs.symm).1] at hc
        cases hc
    | cons b s =>
      rw [ih h.2.2 htail, h.1]
      constructor
      · rintro ⟨hb, u, v, rfl, hc⟩
        exact ⟨b :: u, v, rfl, by rw [CaseEq, List.map_cons, List.map_cons, hb, hc]⟩
      · rintro ⟨u, v, hs, hc⟩
        cases u with
        | nil => cases hc
        | cons a u =>
          rw [List.cons_append, List.cons.injEq] at hs
          rw [CaseEq, List.map_cons, List.map_cons, List.cons.injEq] at hc
          exact ⟨hs.1 ▸ hc.1, u, v, hs.2, hc.2⟩

end SocketTest.Lib
