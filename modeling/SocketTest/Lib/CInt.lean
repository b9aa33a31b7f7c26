import Mathlib.Tactic

/-!
# Conversions between integer types

Values are integers; a conversion to a type of 32 bits takes the value modulo `2 ^ 32` into the range
of the type.
-/

namespace SocketTest.Lib

/-- Conversion to a 32-bit `int`. -/
def toInt32 (z : ℤ) : ℤ := z.bmod (2 ^ 32)

/-- Conversion to a 32-bit `unsigned`. -/
def toUInt32 (z : ℤ) : ℤ := z % 2 ^ 32

theorem toInt32_range (z : ℤ) : -2 ^ 31 ≤ toInt32 z ∧ toInt32 z < 2 ^ 31 := by
  have h1 := Int.le_bmod (x := z) (m := 2 ^ 32) (by norm_num)
  have h2 := Int.bmod_lt (x := z) (m := 2 ^ 32) (by norm_num)
  unfold toInt32
  omega

/-- A value is kept exactly when it is in the range of `int`. -/
theorem toInt32_eq_self {z : ℤ} : toInt32 z = z ↔ -2 ^ 31 ≤ z ∧ z < 2 ^ 31 := by
  constructor
  · intro h
    have hr := toInt32_range z
    rwa [h] at hr
  · rintro ⟨h1, h2⟩
    exact Int.bmod_eq_of_le (by norm_num; omega) (by norm_num; omega)

theorem toUInt32_toInt32 (z : ℤ) : toUInt32 (toInt32 z) = z % 2 ^ 32 := by
  unfold toUInt32 toInt32
  exact Int.bmod_emod

end SocketTest.Lib
