import Mathlib.Tactic

/-!
# Properties of a log

`Throughout P log` says that every entry of the log stands in the relation `P` to what comes before
it.
-/

namespace SocketTest.Lib

variable {α : Type*} {P : List α → α → Prop} {log : List α} {a : α}

def Throughout (P : List α → α → Prop) (log : List α) : Prop :=
  ∀ before a after, log = before ++ a :: after → P before a

theorem throughout_nil : Throughout P [] := by
  intro before a after h
  simp at h

theorem throughout_concat : Throughout P (log ++ [a]) ↔ Throughout P log ∧ P log a := by
  constructor
  · intro h
    refine ⟨fun before b after he => h before b (after ++ [a]) ?_, h log a [] rfl⟩
    rw [he, List.append_assoc, List.cons_append]
  · rintro ⟨h, ha⟩ before b after he
    rcases List.eq_nil_or_concat after with rfl | ⟨after, c, rfl⟩
    · obtain ⟨rfl, hb⟩ := List.append_inj' he rfl
      obtain rfl : a = b := by simpa using hb
      exact ha
    · rw [List.concat_eq_append, ← List.cons_append, ← List.append_assoc] at he
      exact h before b after (List.append_inj' he rfl).1

end SocketTest.Lib
