import SocketTest.Lib.History

/-!
# A ledger of one resource

A log of what is taken and given back, between marks. It is balanced when what is taken is the next
thing given back, before the next mark, and nothing else is ever given back.
-/

namespace SocketTest.Lib.Ledger

variable {R : Type*}

inductive Entry (R : Type*)
  | begins
  | take (r : R)
  | give (r : R)
  deriving DecidableEq, Repr

/-- `y` may come behind `x`, or first. -/
def Follows (x : Option (Entry R)) (y : Entry R) : Prop :=
  (∀ r, x = some (.take r) → y = .give r) ∧ ∀ r, y = .give r → x = some (.take r)

def Balanced (log : List (Entry R)) : Prop :=
  ∀ before y after, log = before ++ y :: after → Follows before.getLast? y

variable {log : List (Entry R)} {y : Entry R} {r : R}

theorem balanced_nil : Balanced (R := R) [] := throughout_nil

theorem Balanced.append (h : Balanced log) (hy : Follows log.getLast? y) : Balanced (log ++ [y]) :=
  throughout_concat.2 ⟨h, hy⟩

/-- A mark, or what is taken, with nothing taken before it. -/
theorem follows_free {x : Option (Entry R)} (hx : ∀ r, x ≠ some (.take r)) (hy : ∀ r, y ≠ .give r) :
    Follows x y :=
  ⟨fun r h => absurd h (hx r), fun r h => absurd h (hy r)⟩

theorem follows_give : Follows (some (.take r)) (.give r) := by
  refine ⟨fun r' h => ?_, fun r' h => ?_⟩
  · cases h
    rfl
  · cases h
    rfl

end SocketTest.Lib.Ledger
