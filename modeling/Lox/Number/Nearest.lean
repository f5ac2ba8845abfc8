import Lox.Number.Magnitude
import Lox.Number.Numeral

namespace Lox.Number

-- The whole number nearest to `n / d`; a tie goes to the even one.
def roundHalfEven (n d : Nat) : Nat :=
  if 2 * (n % d) < d ∨ (2 * (n % d) = d ∧ n / d % 2 = 0) then n / d else n / d + 1

-- The pattern of the double nearest to `n / d`; a tie goes to the even pattern. With the value
-- cut to its leading 53 bits, the shift that cuts it off and the rounded quotient make up the
-- pattern, also where rounding carries into the next power of two. Values from the middle
-- between the largest double and the next power of two on give infinity.
def nearest (n d : Nat) : Nat :=
  let shift := Nat.log2 (n * Nat.pow 2 1074 / d) - 52
  min infinity
    (shift * Nat.pow 2 52 + roundHalfEven (n * Nat.pow 2 1074) (d * Nat.pow 2 shift))

-- The double with the pattern `b`.
def ofPattern (b : Nat) : Float :=
  Float.ofBits (UInt64.ofNat b)

-- The double nearest to a decimal: digits, and possibly a point and more digits.
def read (text : List Char) : Float :=
  let whole := text.takeWhile isDigit
  let fraction := (text.dropWhile isDigit).drop 1
  ofPattern (nearest (ofDigits (whole ++ fraction)) (Nat.pow 10 fraction.length))

end Lox.Number
