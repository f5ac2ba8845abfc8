import Lox.Proofs.Number.Shortest
import Mathlib.Data.List.TakeWhile

namespace Lox.Number

-- A row of digits after others moves what those are worth to the left.
theorem foldl_digits (n : Nat) (digits : List Char) :
    digits.foldl (fun n c => 10 * n + (c.toNat - '0'.toNat)) n =
      n * Nat.pow 10 digits.length + ofDigits digits := by
  induction digits generalizing n with
  | nil => simp [ofDigits]
  | cons c digits ih =>
    have hpow : Nat.pow 10 (digits.length + 1) = 10 * Nat.pow 10 digits.length := Nat.pow_succ'
    rw [ofDigits, List.foldl_cons, List.foldl_cons, ih, ih, List.length_cons, hpow, Nat.add_mul,
      Nat.add_mul, Nat.mul_zero, Nat.zero_mul, Nat.zero_add, Nat.add_assoc, ← Nat.mul_assoc,
      Nat.mul_comm n 10]

theorem ofDigits_append (a b : List Char) :
    ofDigits (a ++ b) = ofDigits a * Nat.pow 10 b.length + ofDigits b := by
  rw [ofDigits, List.foldl_append, foldl_digits]
  rfl

theorem lt_pow_digitCount (n : Nat) : n < Nat.pow 10 (digitCount n) := by
  fun_induction digitCount n with
  | case1 => decide
  | case2 n hn ih =>
    have hpow : Nat.pow 10 (digitCount (n / 10) + 1) = 10 * Nat.pow 10 (digitCount (n / 10)) :=
      Nat.pow_succ'
    rw [hpow]
    omega

theorem ofDigits_numeral (n : Nat) : ofDigits (numeral n) = n := by
  rw [numeral, ofDigits_padded]
  refine Nat.mod_eq_of_lt ((lt_pow_digitCount n).trans_le ?_)
  exact Nat.pow_le_pow_right (by omega) (Nat.le_max_right 1 _)

theorem isDigit_of_mem_padded {width n : Nat} {c : Char} (h : c ∈ padded width n) :
    isDigit c = true := by
  induction width generalizing n with
  | zero => simp [padded] at h
  | succ width ih =>
    rw [padded] at h
    obtain h | h := List.mem_append.1 h
    · exact ih h
    · obtain rfl := List.mem_singleton.1 h
      exact isDigit_digit n

theorem isDigit_of_mem_numeral {n : Nat} {c : Char} (h : c ∈ numeral n) : isDigit c = true :=
  isDigit_of_mem_padded h

theorem numeral_ne_nil (n : Nat) : numeral n ≠ [] := by
  intro h
  have hlength := congrArg List.length h
  rw [numeral, length_padded, List.length_nil] at hlength
  omega

-- What a number in plain notation is worth, counted in units of so many places after the point.
def worthOf (places : Nat) (text : List Char) : Nat :=
  let whole := text.takeWhile isDigit
  let fraction := (text.dropWhile isDigit).drop 1
  ofDigits (whole ++ fraction) * Nat.pow 10 (places - fraction.length)

section

variable (places : Nat)

theorem worthOf_numeral (n : Nat) : worthOf places (numeral n) = n * Nat.pow 10 places := by
  have hdigits : ∀ c ∈ numeral n, isDigit c = true := fun c => isDigit_of_mem_numeral
  rw [worthOf, List.takeWhile_eq_self_iff.2 hdigits, List.dropWhile_eq_nil_iff.2 hdigits,
    List.drop_nil, List.length_nil, List.append_nil, Nat.sub_zero, ofDigits_numeral]

theorem worthOf_zero : worthOf places ['0'] = 0 := by
  have hdigit : isDigit '0' = true := by decide
  simp [worthOf, ofDigits, hdigit]

theorem worthOf_point (whole width fraction : Nat) :
    worthOf places (numeral whole ++ '.' :: padded width fraction) =
      (whole * Nat.pow 10 width + fraction % Nat.pow 10 width) * Nat.pow 10 (places - width) := by
  have hdigits : ∀ c ∈ numeral whole, isDigit c = true := fun c => isDigit_of_mem_numeral
  have hpoint : isDigit '.' = false := by decide
  rw [worthOf, List.takeWhile_append_of_pos hdigits, List.dropWhile_append_of_pos hdigits]
  simp only [List.takeWhile_cons, List.dropWhile_cons, hpoint]
  simp [ofDigits_append, ofDigits_numeral, ofDigits_padded, length_padded]

theorem worthOf_shifted {place : Nat} (h : places ≤ place) (n : Nat) :
    worthOf places (numeral (n * Nat.pow 10 (place - places))) = n * Nat.pow 10 place := by
  have hpow : Nat.pow 10 (place - places) * Nat.pow 10 places = Nat.pow 10 place :=
    Nat.pow_sub_mul_pow 10 h
  rw [worthOf_numeral, Nat.mul_assoc, hpow]

theorem worthOf_cut {place : Nat} (h : place ≤ places) (n : Nat) :
    worthOf places (numeral (n / Nat.pow 10 (places - place)) ++ '.' :: padded (places - place) n) =
      n * Nat.pow 10 place := by
  rw [worthOf_point, Nat.div_add_mod', Nat.sub_sub_self h]

end

-- Plain notation says exactly what a decimal is worth.
theorem worthOf_plain (d : Decimal) : worthOf 324 d.plain = d.worth := by
  unfold Decimal.plain Decimal.worth
  split
  · next hplace => exact worthOf_shifted 324 hplace d.coefficient
  · next hplace => exact worthOf_cut 324 (by omega) d.coefficient

end Lox.Number
