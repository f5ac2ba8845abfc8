import Lox.Number.Magnitude
import Lox.Number.Numeral

namespace Lox.Number

-- The decimal `coefficient * 10 ^ place / 10 ^ 324`.
structure Decimal where
  coefficient : Nat
  place : Nat
deriving DecidableEq, Repr

-- A finite double that is not zero is worth `2 * units b` halves of a unit. The decimals that
-- read back as it lie between the middles to its two neighbours, which themselves belong to it
-- only if its pattern is even. Both sides are brought to whole numbers first: a half unit is
-- 2 ^ -1075, a decimal counts in 10 ^ -324.
def ReadsBack (b : Nat) (d : Decimal) : Prop :=
  let low := (units (b - 1) + units b) * Nat.pow 10 324
  let high := (units b + units (b + 1)) * Nat.pow 10 324
  let value := d.coefficient * Nat.pow 10 d.place * Nat.pow 2 1075
  if b % 2 = 0 then low ≤ value ∧ value ≤ high else low < value ∧ value < high

instance (b : Nat) (d : Decimal) : Decidable (ReadsBack b d) := by
  unfold ReadsBack
  infer_instance

-- Of the multiples of 10 ^ place / 10 ^ 324 that read back as `b`, the one nearest to it; a tie
-- goes to the even coefficient. Only the two multiples around the value can be the answer.
def nearestAt (b : Nat) (place : Nat) : Option Decimal :=
  let step := Nat.pow 10 place * Nat.pow 2 1075
  let value := 2 * units b * Nat.pow 10 324
  let below : Decimal := ⟨value / step, place⟩
  let above : Decimal := ⟨value / step + 1, place⟩
  if ReadsBack b below then
    if ReadsBack b above then
      let gap := 2 * (value % step)
      if gap < step ∨ (gap = step ∧ below.coefficient % 2 = 0) then some below else some above
    else
      some below
  else if ReadsBack b above then
    some above
  else
    none

-- The first answer from the place `place` downwards. At place zero the steps are smaller than
-- the gaps between neighbouring doubles, so that there always is an answer there.
def shortestFrom (b : Nat) : (place : Nat) → Decimal
  | 0 => (nearestAt b 0).getD ⟨0, 0⟩
  | place + 1 => (nearestAt b (place + 1)).getD (shortestFrom b place)

-- The decimal with the fewest digits that reads back as the pattern `b`, and the nearest of
-- those. A coarser place leaves fewer digits, so the coarsest place with an answer has it; the
-- search starts where one step is beyond everything that reads back.
def shortest (b : Nat) : Decimal :=
  shortestFrom b (324 + digitCount ((units b + units (b + 1)) / Nat.pow 2 1075))

-- A decimal in plain notation: all digits up to the decimal point and, if the place is finer
-- than one, a point and the digits after it. There is never an exponent.
def Decimal.plain (d : Decimal) : List Char :=
  if 324 ≤ d.place then
    numeral (d.coefficient * Nat.pow 10 (d.place - 324))
  else
    let digits := 324 - d.place
    numeral (d.coefficient / Nat.pow 10 digits) ++ '.' :: padded digits d.coefficient

-- How a number is shown: the shortest decimal that reads back, in plain notation.
def display (x : Float) : String :=
  let b := magnitude x
  if infinity < b then
    "NaN"
  else
    let text :=
      if b = infinity then ['i', 'n', 'f']
      else if b = 0 then ['0']
      else (shortest b).plain
    String.ofList (if isNegative x then '-' :: text else text)

end Lox.Number
