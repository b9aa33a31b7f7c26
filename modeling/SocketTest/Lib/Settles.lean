import Mathlib.Tactic

/-!
# Systems that come to rest

`Settles step Q s`: whatever steps are taken from `s`, they come to an end, and `Q` holds where no
step is left. It is shown by an invariant and something that goes down in a well-founded order
(`Settles.of_decreasing`).
-/

namespace SocketTest.Lib

variable {σ : Type*} {step : σ → σ → Prop} {Q R : σ → Prop} {s t : σ}

/-- No step is left. -/
def Stuck (step : σ → σ → Prop) (s : σ) : Prop := ∀ t, ¬ step s t

inductive Settles (step : σ → σ → Prop) (Q : σ → Prop) : σ → Prop
  | intro {s : σ} (hstep : ∀ t, step s t → Settles step Q t) (hrest : Stuck step s → Q s) :
      Settles step Q s

namespace Settles

/-- Every step keeps the invariant and goes down. -/
theorem of_decreasing {α : Type*} [Preorder α] [WellFoundedLT α] {I : σ → Prop} (m : σ → α)
    (hI : ∀ s t, I s → step s t → I t) (hm : ∀ s t, I s → step s t → m t < m s)
    (hQ : ∀ s, I s → Stuck step s → Q s) (h0 : I s) : Settles step Q s := by
  induction hs : m s using WellFoundedLT.induction generalizing s with
  | ind x ih =>
    subst hs
    exact .intro (fun t ht => ih (m t) (hm s t h0 ht) (hI s t h0 ht) rfl) (hQ s h0)

/-- What every step keeps holds at rest too. -/
theorem invariant {I : σ → Prop} (h : Settles step Q s) (hI : ∀ s t, I s → step s t → I t)
    (h0 : I s) : Settles step (fun t => I t ∧ Q t) s := by
  induction h with
  | @intro s _ hrest ih =>
    exact .intro (fun t ht => ih t ht (hI s t h0 ht)) (fun hs => ⟨h0, hrest hs⟩)

theorem mono (h : Settles step Q s) (hQ : ∀ s, Q s → R s) : Settles step R s := by
  induction h with
  | intro _ hrest ih => exact .intro ih (fun hs => hQ _ (hrest hs))

end Settles

end SocketTest.Lib
