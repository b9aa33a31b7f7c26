import Mathlib.Tactic

/-!
# Counting threads

Each thread stands at a point of its program, `pc : T → P`. What the threads contribute to a sum
changes, when one thread moves, by what that thread contributes (`sum_move`); `standing Q pc` is how
many stand where `Q` holds.
-/

namespace SocketTest.Lib

variable {T P : Type*}

/-- One thread moves. -/
theorem sum_move [DecidableEq T] {s : Finset T} {i : T} (hi : i ∈ s) (w : P → ℕ) (pc : T → P)
    (v : P) :
    ∑ j ∈ s, w (Function.update pc i v j) + w (pc i) = ∑ j ∈ s, w (pc j) + w v := by
  have hrest : ∑ j ∈ s.erase i, w (Function.update pc i v j) = ∑ j ∈ s.erase i, w (pc j) := by
    apply Finset.sum_congr rfl
    intro j hj
    rw [Function.update_of_ne (Finset.ne_of_mem_erase hj)]
  rw [← Finset.add_sum_erase _ _ hi, hrest, Function.update_self,
    ← Finset.add_sum_erase _ (fun j => w (pc j)) hi]
  omega

variable [Fintype T]

/-- The number of threads that stand where `Q` holds. -/
def standing (Q : P → Prop) [DecidablePred Q] (pc : T → P) : ℕ :=
  (Finset.univ.filter fun i => Q (pc i)).card

variable {Q : P → Prop} [DecidablePred Q] {pc : T → P}

theorem standing_eq_zero : standing Q pc = 0 ↔ ∀ i, ¬ Q (pc i) := by
  rw [standing, Finset.card_eq_zero, Finset.filter_eq_empty_iff]
  exact ⟨fun h i => h (Finset.mem_univ i), fun h i _ => h i⟩

theorem standing_pos_iff : 0 < standing Q pc ↔ ∃ i, Q (pc i) := by
  rw [Nat.pos_iff_ne_zero, Ne, standing_eq_zero, not_forall_not]

variable [DecidableEq T]

theorem standing_update (pc : T → P) (i : T) (v : P) :
    standing Q (Function.update pc i v) + (if Q (pc i) then 1 else 0) =
      standing Q pc + if Q v then 1 else 0 := by
  rw [standing, standing, Finset.card_filter, Finset.card_filter]
  exact sum_move (Finset.mem_univ i) (fun p => if Q p then 1 else 0) pc v

/-- A thread comes to `Q`. -/
theorem standing_enter {i : T} {v : P} (h : ¬ Q (pc i)) (hv : Q v) :
    standing Q (Function.update pc i v) = standing Q pc + 1 := by
  have := standing_update (Q := Q) pc i v
  rwa [if_neg h, if_pos hv] at this

/-- A thread leaves `Q`. -/
theorem standing_leave {i : T} {v : P} (h : Q (pc i)) (hv : ¬ Q v) :
    standing Q (Function.update pc i v) + 1 = standing Q pc := by
  have := standing_update (Q := Q) pc i v
  rwa [if_pos h, if_neg hv] at this

theorem standing_stay {i : T} {v : P} (h : Q (pc i) ↔ Q v) :
    standing Q (Function.update pc i v) = standing Q pc := by
  have hmove := standing_update (Q := Q) pc i v
  by_cases hv : Q v
  · rw [if_pos (h.2 hv), if_pos hv] at hmove
    omega
  · rw [if_neg (fun hi => hv (h.1 hi)), if_neg hv] at hmove
    omega

end SocketTest.Lib
