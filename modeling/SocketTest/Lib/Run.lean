import Mathlib.Tactic

/-!
# Runs of a labelled step relation

`Run step s as t` is a run from `s` to `t` whose steps have the labels `as`. `Run.invariant` and
`Run.history` are the two induction rules: a property of states, and a property of a state together
with the labels that led to it. `Run.simulates` takes a run to a system that this one refines,
`Run.follows` and `Run.flatten` to one that takes several steps for one, or none.
`Run.clean_iff` is for a property that some steps break for good: it holds at the end of exactly the
runs without such a step. `Run.Always` is about the states of a run, `Run.Each` about its steps.
-/

namespace SocketTest.Lib

variable {σ ι : Type*}

inductive Run (step : σ → ι → σ → Prop) : σ → List ι → σ → Prop
  | nil (s : σ) : Run step s [] s
  | cons {s t u : σ} {a : ι} {as : List ι} :
      step s a t → Run step t as u → Run step s (a :: as) u

namespace Run

variable {step : σ → ι → σ → Prop} {s t u : σ} {as bs : List ι}

theorem single {a : ι} (h : step s a t) : Run step s [a] t := .cons h (.nil t)

theorem append (h : Run step s as t) (h' : Run step t bs u) : Run step s (as ++ bs) u := by
  induction h with
  | nil s => exact h'
  | cons ha _ ih => exact .cons ha (ih h')

theorem mono {step' : σ → ι → σ → Prop} (hmono : ∀ s a t, step s a t → step' s a t)
    (h : Run step s as t) : Run step' s as t := by
  induction h with
  | nil s => exact .nil s
  | cons ha _ ih => exact .cons (hmono _ _ _ ha) ih

theorem split (h : Run step s (as ++ bs) u) : ∃ t, Run step s as t ∧ Run step t bs u := by
  induction as generalizing s with
  | nil => exact ⟨s, .nil s, h⟩
  | cons a as ih =>
    cases h with
    | cons ha hr =>
      obtain ⟨t, h1, h2⟩ := ih hr
      exact ⟨t, .cons ha h1, h2⟩

/-- What every step preserves holds at the end of every run. -/
theorem invariant {I : σ → Prop} (hI : ∀ s a t, I s → step s a t → I t) (h : Run step s as t)
    (h0 : I s) : I t := by
  induction h with
  | nil s => exact h0
  | cons ha _ ih => exact ih (hI _ _ _ h0 ha)

/-- Where `I` holds, the system is a simulation of another one; its runs are runs of that. -/
theorem simulates {σ' ι' : Type*} {step' : σ' → ι' → σ' → Prop} {f : σ → σ'} {g : ι → ι'}
    {I : σ → Prop} (hI : ∀ s a t, I s → step s a t → I t)
    (hstep : ∀ s a t, I s → step s a t → step' (f s) (g a) (f t)) (h : Run step s as t) (h0 : I s) :
    Run step' (f s) (as.map g) (f t) := by
  induction h with
  | nil s => exact .nil (f s)
  | cons ha _ ih => exact .cons (hstep _ _ _ h0 ha) (ih (hI _ _ _ h0 ha))

/-- Where `R` relates the states, the other system answers each step with a run; it then answers a run
with a run. -/
theorem follows {σ' ι' : Type*} {step' : σ' → ι' → σ' → Prop} {R : σ → σ' → Prop} {x : σ'}
    (hstep : ∀ s a t x, R s x → step s a t → ∃ bs y, Run step' x bs y ∧ R t y)
    (h : Run step s as t) (h0 : R s x) : ∃ bs y, Run step' x bs y ∧ R t y := by
  induction h generalizing x with
  | nil s => exact ⟨[], x, .nil x, h0⟩
  | cons ha _ ih =>
    obtain ⟨bs, y, hr, hy⟩ := hstep _ _ _ x h0 ha
    obtain ⟨cs, z, hr', hz⟩ := ih hy
    exact ⟨bs ++ cs, z, hr.append hr', hz⟩

/-- A run each step of which stands for the steps that its label lists. -/
theorem flatten {σ' ι' : Type*} {step : σ → List ι' → σ → Prop} {step' : σ' → ι' → σ' → Prop}
    {f : σ → σ'} {ls : List (List ι')} (hstep : ∀ s as t, step s as t → Run step' (f s) as (f t))
    (h : Run step s ls t) : Run step' (f s) ls.flatten (f t) := by
  induction h with
  | nil s => exact .nil (f s)
  | cons ha _ ih => exact (hstep _ _ _ ha).append ih

theorem history_from {P : List ι → σ → Prop}
    (hP : ∀ as s a t, P as s → step s a t → P (as ++ [a]) t) (h : Run step s as t) :
    ∀ {pre : List ι}, P pre s → P (pre ++ as) t := by
  induction h with
  | nil s => intro pre h0; rwa [List.append_nil]
  | @cons s t u a as ha _ ih =>
    intro pre h0
    have := ih (hP pre s a t h0 ha)
    rwa [List.append_assoc] at this

/-- A property of the labels so far and the state reached, extended step by step. -/
theorem history (h : Run step s as t) (P : List ι → σ → Prop) (h0 : P [] s)
    (hP : ∀ as s a t, P as s → step s a t → P (as ++ [a]) t) : P as t :=
  history_from hP h h0

/-- `clean` survives exactly the good steps of a deterministic system: it holds at the end of exactly
the runs that consist of good steps. -/
theorem clean_iff (I clean : σ → Prop) (good : σ → ι → Prop)
    (hdet : ∀ s a t t', step s a t → step s a t' → t = t') (hI : ∀ s a t, I s → step s a t → I t)
    (hclean : ∀ s a t, I s → step s a t → (clean t ↔ clean s ∧ good s a)) (h : Run step s as t)
    (h0 : I s) : clean t ↔ clean s ∧ Run (fun s a t => step s a t ∧ good s a) s as t := by
  induction h with
  | nil s => exact (and_iff_left (.nil s)).symm
  | @cons s u t a as ha hr ih =>
    rw [ih (hI s a u h0 ha), hclean s a u h0 ha]
    constructor
    · rintro ⟨⟨hs, hg⟩, hrun⟩
      exact ⟨hs, .cons ⟨ha, hg⟩ hrun⟩
    · rintro ⟨hs, hrun⟩
      cases hrun with
      | cons hag hrun =>
        rw [hdet s a u _ ha hag.1]
        exact ⟨⟨hs, hag.2⟩, hrun⟩

/-- `P` holds at every point of the run. -/
def Always (step : σ → ι → σ → Prop) (P : σ → Prop) (s : σ) (as : List ι) : Prop :=
  ∀ pre t, pre <+: as → Run step s pre t → P t

/-- A run with `P` at every point, as a run of the steps that lead to `P`. -/
theorem Always.run {P : σ → Prop} (hall : Always step P s as) (h : Run step s as t) :
    Run (fun s a t => step s a t ∧ P t) s as t := by
  induction h with
  | nil s => exact .nil s
  | @cons s u t a as ha _ ih =>
    refine .cons ⟨ha, hall [a] u (by simp) (.single ha)⟩ (ih fun pre v hpre hr => ?_)
    exact hall (a :: pre) v (List.cons_prefix_cons.2 ⟨rfl, hpre⟩) (.cons ha hr)

/-- In a deterministic system, `P` holds all along exactly the runs whose steps are good, when a good
step is one that keeps `P`. -/
theorem always_iff (I P : σ → Prop) (good : σ → ι → Prop)
    (hdet : ∀ s a t t', step s a t → step s a t' → t = t') (hI : ∀ s a t, I s → step s a t → I t)
    (hP : ∀ s a t, I s → P s → step s a t → (P t ↔ good s a)) (h : Run step s as t) (h0 : I s)
    (hs : P s) : Always step P s as ↔ Run (fun s a t => step s a t ∧ good s a) s as t := by
  induction h with
  | nil s =>
    refine ⟨fun _ => .nil s, fun _ pre t hpre hr => ?_⟩
    rw [List.prefix_nil.1 hpre] at hr
    cases hr
    exact hs
  | @cons s u t a as ha hr ih =>
    constructor
    · intro hall
      have hu : P u := hall [a] u (by simp) (.single ha)
      refine .cons ⟨ha, (hP s a u h0 hs ha).1 hu⟩ ((ih (hI s a u h0 ha) hu).1 ?_)
      intro pre t hpre hrun
      exact hall (a :: pre) t (List.cons_prefix_cons.2 ⟨rfl, hpre⟩) (.cons ha hrun)
    · intro hrun pre t hpre hr'
      cases hrun with
      | cons hag hrun =>
        rw [← hdet s a u _ ha hag.1] at hrun
        have hu : P u := (hP s a u h0 hs ha).2 hag.2
        cases hr' with
        | nil => exact hs
        | cons ha' hr' =>
          obtain ⟨rfl, htail⟩ := List.cons_prefix_cons.1 hpre
          rw [← hdet _ _ u _ ha ha'] at hr'
          exact (ih (hI _ _ u h0 ha) hu).2 hrun _ t htail hr'

/-- `P` holds of every step of the run. -/
def Each (step P : σ → ι → σ → Prop) (s : σ) (as : List ι) : Prop :=
  ∀ pre a post t u, as = pre ++ a :: post → Run step s pre t → step t a u → P t a u

theorem Each.congr {P Q : σ → ι → σ → Prop} (h : ∀ s a t, step s a t → (P s a t ↔ Q s a t)) :
    Each step P s as ↔ Each step Q s as := by
  constructor
  · exact fun hall pre a post t u has hr hs => (h t a u hs).1 (hall pre a post t u has hr hs)
  · exact fun hall pre a post t u has hr hs => (h t a u hs).2 (hall pre a post t u has hr hs)

/-- What the steps with `P` preserve holds all along a run that has only such steps. -/
theorem Each.always {P : σ → ι → σ → Prop} {I : σ → Prop} (hall : Each step P s as)
    (hI : ∀ s a t, I s → step s a t → P s a t → I t) (h0 : I s) : Always step I s as := by
  intro pre t hpre hr
  refine (hr.history (fun pre t => Run step s pre t ∧ (pre <+: as → I t))
    ⟨.nil s, fun _ => h0⟩ ?_).2 hpre
  rintro pre t a u ⟨hrun, ih⟩ ha
  refine ⟨hrun.append (.single ha), fun ⟨post, hpost⟩ => ?_⟩
  rw [List.append_assoc, List.singleton_append] at hpost
  exact hI t a u (ih ⟨_, hpost⟩) ha (hall pre a post t u hpost.symm hrun ha)

/-- Every label of the list is allowed where it comes. -/
def permits (allowed : σ → ι → Bool) (exec : σ → ι → σ) : σ → List ι → Bool
  | _, [] => true
  | s, a :: as => allowed s a && permits allowed exec (exec s a) as

theorem of_permits {allowed : σ → ι → Bool} {exec : σ → ι → σ}
    (hstep : ∀ s a, allowed s a = true → step s a (exec s a)) (h : permits allowed exec s as = true) :
    Run step s as (as.foldl exec s) := by
  induction as generalizing s with
  | nil => exact .nil s
  | cons a as ih =>
    obtain ⟨ha, has⟩ := Bool.and_eq_true_iff.1 h
    exact .cons (hstep s a ha) (ih has)

end Run

end SocketTest.Lib
