namespace Lox.Number

-- The bit pattern of positive infinity. The patterns below it are the finite doubles without
-- a sign, in increasing order; the patterns above it, up to the sign bit, are NaNs.
def infinity : Nat := 0x7ff0000000000000

-- What the double with the pattern `b` and no sign is worth, counted in units of 2 ^ -1074.
-- Patterns below 2 ^ 52 count the units themselves. From there on the low 52 bits follow a
-- leading one, and each step of the high bits doubles the worth. At `infinity` the rule gives
-- the value that would come next if the exponents went on.
def units (b : Nat) : Nat :=
  let leading := Nat.pow 2 52
  if b < leading then b else (leading + b % leading) * Nat.pow 2 (b / leading - 1)

-- The pattern of a double without its sign bit.
def magnitude (x : Float) : Nat :=
  x.toBits.toNat % Nat.pow 2 63

def isNegative (x : Float) : Bool :=
  Nat.pow 2 63 ≤ x.toBits.toNat

end Lox.Number
