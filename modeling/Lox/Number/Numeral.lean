namespace Lox.Number

-- The digit of a number below ten.
def digit (n : Nat) : Char :=
  Char.ofNat ('0'.toNat + n % 10)

def isDigit (c : Char) : Bool :=
  '0' ≤ c && c ≤ '9'

-- The last `width` decimal digits of `n`, with zeros in front where `n` has fewer.
def padded : (width : Nat) → (n : Nat) → List Char
  | 0, _ => []
  | width + 1, n => padded width (n / 10) ++ [digit n]

-- How many decimal digits `n` has; zero has none.
def digitCount (n : Nat) : Nat :=
  if n = 0 then 0 else digitCount (n / 10) + 1
termination_by n

-- `n` in decimal, without leading zeros but with at least one digit.
def numeral (n : Nat) : List Char :=
  padded (max 1 (digitCount n)) n

-- The number that a row of digits stands for.
def ofDigits (digits : List Char) : Nat :=
  digits.foldl (fun n c => 10 * n + (c.toNat - '0'.toNat)) 0

theorem length_padded (width n : Nat) : (padded width n).length = width := by
  induction width generalizing n with
  | zero => rfl
  | succ width ih => simp [padded, ih]

theorem toNat_digit (n : Nat) : (digit n).toNat = '0'.toNat + n % 10 := by
  have h : ∀ d < 10, (Char.ofNat ('0'.toNat + d)).toNat = '0'.toNat + d := by decide
  exact h (n % 10) (Nat.mod_lt n (by decide))

theorem isDigit_digit (n : Nat) : isDigit (digit n) = true := by
  have h : ∀ d < 10, isDigit (Char.ofNat ('0'.toNat + d)) = true := by decide
  exact h (n % 10) (Nat.mod_lt n (by decide))

-- Reading digits undoes writing them, as far as the width reaches.
theorem ofDigits_padded (width n : Nat) : ofDigits (padded width n) = n % Nat.pow 10 width := by
  induction width generalizing n with
  | zero => simp [padded, ofDigits, Nat.mod_one]
  | succ width ih =>
    have hs : ofDigits (padded (width + 1) n) =
        10 * ofDigits (padded width (n / 10)) + ((digit n).toNat - '0'.toNat) := by
      simp [padded, ofDigits]
    have hpow : Nat.pow 10 (width + 1) = 10 * Nat.pow 10 width := Nat.mul_comm ..
    rw [hs, ih, toNat_digit, Nat.add_sub_cancel_left, hpow, Nat.mod_mul]
    omega

end Lox.Number
