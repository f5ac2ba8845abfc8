import Lox.Number.Magnitude
import Mathlib.Order.Monotone.Basic

namespace Lox.Number

-- The next pattern is worth more: either the bits that follow the leading one go up, or they start
-- again from zero under the next exponent.
theorem units_lt_succ (b : Nat) : units b < units (b + 1) := by
  have hleading : Nat.pow 2 52 = 4503599627370496 := rfl
  unfold units
  rw [hleading]
  dsimp only
  by_cases hb : b < 4503599627370496
  · rw [if_pos hb]
    by_cases hnext : b + 1 < 4503599627370496
    · rw [if_pos hnext]
      omega
    · obtain rfl : b = 4503599627370495 := by omega
      decide
  · rw [if_neg hb, if_neg (by omega)]
    have hpower : 0 < Nat.pow 2 (b / 4503599627370496 - 1) := Nat.pow_pos (by omega)
    by_cases hcarry : b % 4503599627370496 + 1 < 4503599627370496
    · have hdiv : (b + 1) / 4503599627370496 = b / 4503599627370496 := by omega
      have hmod : (b + 1) % 4503599627370496 = b % 4503599627370496 + 1 := by omega
      rw [hdiv, hmod]
      exact Nat.mul_lt_mul_of_pos_right (by omega) hpower
    · have hdiv : (b + 1) / 4503599627370496 - 1 = (b / 4503599627370496 - 1) + 1 := by omega
      have hmod : (b + 1) % 4503599627370496 = 0 := by omega
      have hdouble : Nat.pow 2 (b / 4503599627370496 - 1 + 1) =
          2 * Nat.pow 2 (b / 4503599627370496 - 1) := Nat.pow_succ'
      have hrest : 4503599627370496 + b % 4503599627370496 < 4503599627370496 * 2 := by omega
      rw [hdiv, hmod, hdouble, Nat.add_zero, ← Nat.mul_assoc]
      exact Nat.mul_lt_mul_of_pos_right hrest hpower

theorem units_strictMono : StrictMono units :=
  strictMono_nat_of_lt_succ units_lt_succ

end Lox.Number
