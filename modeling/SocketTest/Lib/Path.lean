import Mathlib.Tactic

/-!
# Lexical resolution of paths

A path is a list of components: a name, `..` or `.`. `resolve dir cs` is the directory that `cs` leads
to from `dir`, given by its names from the root. A path can be brought into a normal form without
knowing where it starts: it goes up a number of times and then down some names (`climb`). This decides
whether it ends below the directory it starts from (`prefix_resolve_iff`).
-/

namespace SocketTest.Lib.Path

variable {N : Type*}

inductive Component (N : Type*)
  | name (n : N)
  | up
  | here
  deriving DecidableEq, Repr

/-- One component further; `..` in the root stays there. -/
def enter (dir : List N) : Component N → List N
  | .name n => dir ++ [n]
  | .up => dir.dropLast
  | .here => dir

def resolve (dir : List N) (cs : List (Component N)) : List N := cs.foldl enter dir

/-- Up `ups` times, then down the names `rest`. -/
structure Climb (N : Type*) where
  ups : ℕ
  rest : List N
  deriving DecidableEq, Repr

def Climb.enter (k : Climb N) : Component N → Climb N
  | .name n => ⟨k.ups, k.rest ++ [n]⟩
  | .up => if k.rest.isEmpty then ⟨k.ups + 1, []⟩ else ⟨k.ups, k.rest.dropLast⟩
  | .here => k

/-- The normal form of a path. -/
def climb (cs : List (Component N)) : Climb N := cs.foldl Climb.enter ⟨0, []⟩

/-- Where a path in normal form leads. -/
def Climb.from (k : Climb N) (dir : List N) : List N := dir.take (dir.length - k.ups) ++ k.rest

theorem resolve_append (dir : List N) (cs ds : List (Component N)) :
    resolve dir (cs ++ ds) = resolve (resolve dir cs) ds := List.foldl_append

theorem enter_from (k : Climb N) (dir : List N) (c : Component N) :
    enter (k.from dir) c = (k.enter c).from dir := by
  cases c with
  | name n => exact List.append_assoc _ _ _
  | here => rfl
  | up =>
    show (dir.take (dir.length - k.ups) ++ k.rest).dropLast =
      (if k.rest.isEmpty then (⟨k.ups + 1, []⟩ : Climb N) else ⟨k.ups, k.rest.dropLast⟩).from dir
    by_cases hrest : k.rest = []
    · have hlen : min (min (dir.length - k.ups) dir.length - 1) (dir.length - k.ups) =
          dir.length - (k.ups + 1) := by omega
      rw [hrest, List.isEmpty_nil, if_pos rfl, List.append_nil, List.dropLast_eq_take,
        List.length_take, List.take_take, hlen]
      exact (List.append_nil _).symm
    · rw [if_neg (by simpa using hrest), List.dropLast_append_of_ne_nil hrest]
      rfl

theorem resolve_eq (dir : List N) (cs : List (Component N)) :
    resolve dir cs = (climb cs).from dir := by
  induction cs using List.reverseRecOn with
  | nil => simp [resolve, climb, Climb.from]
  | append_singleton cs c ih =>
    have hresolve : resolve dir (cs ++ [c]) = enter (resolve dir cs) c := resolve_append dir cs [c]
    have hclimb : climb (cs ++ [c]) = (climb cs).enter c := List.foldl_append
    rw [hresolve, hclimb, ih, enter_from]

/-- A path ends in the directory it starts from or below exactly when it goes down again what it went
up. -/
theorem prefix_resolve_iff (dir : List N) (cs : List (Component N)) :
    dir <+: resolve dir cs ↔ dir.drop (dir.length - (climb cs).ups) <+: (climb cs).rest := by
  rw [resolve_eq, Climb.from]
  nth_rewrite 1 [← List.take_append_drop (dir.length - (climb cs).ups) dir]
  exact List.prefix_append_right_inj _

end SocketTest.Lib.Path
