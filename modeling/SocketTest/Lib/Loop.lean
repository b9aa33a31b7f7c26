import Mathlib.Tactic

/-!
# Loops that need not end

A round of a loop leaves it with a value or goes on with a state. `iterate` runs at most the given
number of rounds; `Ends body s b` says that the loop leaves with `b` after some number of them. The
rules are those of a loop: one round forward (`ends_exit`, `ends_round`), an invariant that holds when
the loop ends (`Ends.invariant`), one with a number that goes down, which makes it end
(`ends_of_variant`), and an invariant that keeps it going (`not_ends`).
-/

namespace SocketTest.Lib.Loop

variable {σ β : Type*} {body : σ → β ⊕ σ} {s s' : σ} {b b' : β}

/-- At most `fuel` rounds of the loop. -/
def iterate (body : σ → β ⊕ σ) : ℕ → σ → Option β
  | 0, _ => none
  | fuel + 1, s =>
    match body s with
    | .inl b => some b
    | .inr s' => iterate body fuel s'

/-- The loop ends with this value. -/
def Ends (body : σ → β ⊕ σ) (s : σ) (b : β) : Prop := ∃ fuel, iterate body fuel s = some b

theorem iterate_exit (h : body s = .inl b) (fuel : ℕ) : iterate body (fuel + 1) s = some b := by
  rw [iterate, h]

theorem iterate_round (h : body s = .inr s') (fuel : ℕ) :
    iterate body (fuel + 1) s = iterate body fuel s' := by
  rw [iterate, h]

theorem ends_exit (h : body s = .inl b) : Ends body s b' ↔ b' = b := by
  constructor
  · rintro ⟨fuel, hf⟩
    cases fuel with
    | zero => cases hf
    | succ fuel =>
      rw [iterate_exit h] at hf
      exact (Option.some.inj hf).symm
  · rintro rfl
    exact ⟨1, iterate_exit h 0⟩

theorem ends_round (h : body s = .inr s') : Ends body s b ↔ Ends body s' b := by
  constructor
  · rintro ⟨fuel, hf⟩
    cases fuel with
    | zero => cases hf
    | succ fuel =>
      rw [iterate_round h] at hf
      exact ⟨fuel, hf⟩
  · rintro ⟨fuel, hf⟩
    exact ⟨fuel + 1, by rw [iterate_round h, hf]⟩

/-- What every round keeps holds in the round that leaves the loop. -/
theorem Ends.invariant {I : σ → Prop} {Q : β → Prop} (hround : ∀ s s', I s → body s = .inr s' → I s')
    (hexit : ∀ s b, I s → body s = .inl b → Q b) (h : Ends body s b) (h0 : I s) : Q b := by
  obtain ⟨fuel, hf⟩ := h
  induction fuel generalizing s with
  | zero => cases hf
  | succ fuel ih =>
    cases hb : body s with
    | inl b₁ =>
      rw [iterate_exit hb] at hf
      cases hf
      exact hexit s b h0 hb
    | inr s₁ =>
      rw [iterate_round hb] at hf
      exact ih (hround s s₁ h0 hb) hf

/-- A loop that keeps an invariant and lowers a number in every round ends, and the invariant holds in
the round that leaves it. -/
theorem ends_of_variant {I : σ → Prop} {Q : β → Prop} (m : σ → ℕ)
    (hround : ∀ s s', I s → body s = .inr s' → I s' ∧ m s' < m s)
    (hexit : ∀ s b, I s → body s = .inl b → Q b) (h0 : I s) : ∃ b, Ends body s b ∧ Q b := by
  induction hm : m s using Nat.strongRecOn generalizing s with
  | ind n ih =>
    cases hb : body s with
    | inl b => exact ⟨b, (ends_exit hb).2 rfl, hexit s b h0 hb⟩
    | inr s₁ =>
      obtain ⟨h1, hlt⟩ := hround s s₁ h0 hb
      obtain ⟨b, hends, hq⟩ := ih (m s₁) (hm ▸ hlt) h1 rfl
      exact ⟨b, (ends_round hb).2 hends, hq⟩

/-- A loop whose rounds all go on, and keep it so, does not end. -/
theorem not_ends {I : σ → Prop} (hI : ∀ s, I s → ∃ s', body s = .inr s' ∧ I s') (h0 : I s) :
    ¬ Ends body s b := by
  rintro ⟨fuel, hf⟩
  induction fuel generalizing s with
  | zero => cases hf
  | succ fuel ih =>
    obtain ⟨s₁, hb, h1⟩ := hI s h0
    rw [iterate_round hb] at hf
    exact ih h1 hf

theorem Ends.unique (h : Ends body s b) (h' : Ends body s b') : b = b' := by
  obtain ⟨fuel, hf⟩ := h
  induction fuel generalizing s with
  | zero => cases hf
  | succ fuel ih =>
    cases hb : body s with
    | inl b₁ =>
      rw [iterate_exit hb] at hf
      cases hf
      exact ((ends_exit hb).1 h').symm
    | inr s₁ =>
      rw [iterate_round hb] at hf
      exact ih ((ends_round hb).1 h') hf

end SocketTest.Lib.Loop
