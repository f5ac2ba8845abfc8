import Lox.Proofs.Number.Distinct
import Lox.Proofs.Number.Rounding
import Mathlib

-- All of Mathlib is imported for the laws of packed doubles, which no module of it brings along.

namespace Lox.Number

open Float.Model.UnpackedFloat
open Float.Model (Format)

section

variable {spec : Format}

-- The same bits under the other sign.
def flipped (b : BitVec spec.numBits) : BitVec spec.numBits :=
  packComponents spec (-Sign.ofBitVec (unpackSign b)) (unpackExponent b) (unpackMantissa b)

theorem unpack_flipped (b : BitVec spec.numBits) :
    unpack spec (flipped b) = (unpack spec b).neg := by
  unfold unpack flipped
  simp only [unpackSign_packComponents, unpackExponent_packComponents, unpackMantissa_packComponents,
    Sign.ofBitVec_toBitVec]
  split
  · split <;> rfl
  · split
    · split <;> rfl
    · rfl

theorem pack_neg {b : BitVec spec.numBits} (hspec : 2 ≤ spec.exponentBits)
    (h : isNaNBits b = false) :
    pack spec (unpack spec b).neg = flipped b := by
  have hflipped : isNaNBits (flipped b) = false := by
    unfold isNaNBits flipped
    rwa [unpackExponent_packComponents, unpackMantissa_packComponents]
  rw [← unpack_flipped, pack_unpack _ hspec, hflipped]
  rfl

-- The bits below the sign, as a number.
def unsigned (b : BitVec spec.numBits) : Nat :=
  (unpackExponent b).toNat * 2 ^ spec.mantissaBitsWithoutImplicit + (unpackMantissa b).toNat

theorem unsigned_lt (b : BitVec spec.numBits) :
    unsigned b < 2 ^ (spec.exponentBits + spec.mantissaBitsWithoutImplicit) := by
  have he := (unpackExponent b).isLt
  have hm := (unpackMantissa b).isLt
  calc unsigned b
      < (unpackExponent b).toNat * 2 ^ spec.mantissaBitsWithoutImplicit +
          2 ^ spec.mantissaBitsWithoutImplicit := Nat.add_lt_add_left hm _
    _ = ((unpackExponent b).toNat + 1) * 2 ^ spec.mantissaBitsWithoutImplicit :=
        (Nat.succ_mul _ _).symm
    _ ≤ 2 ^ spec.exponentBits * 2 ^ spec.mantissaBitsWithoutImplicit := Nat.mul_le_mul_right _ he
    _ = 2 ^ (spec.exponentBits + spec.mantissaBitsWithoutImplicit) := (Nat.pow_add ..).symm

theorem toNat_packComponents (s : Sign) (b : BitVec spec.numBits) :
    (packComponents spec s (unpackExponent b) (unpackMantissa b)).toNat =
      s.toBitVec.toNat * 2 ^ (spec.exponentBits + spec.mantissaBitsWithoutImplicit) + unsigned b := by
  have he := (unpackExponent b).isLt
  have hm := (unpackMantissa b).isLt
  rw [packComponents, BitVec.toNat_append, BitVec.toNat_append, ← Nat.shiftLeft_add_eq_or_of_lt hm,
    ← Nat.shiftLeft_add_eq_or_of_lt he, Nat.shiftLeft_eq, Nat.shiftLeft_eq, unsigned, Nat.pow_add]
  ring

end

section

variable {x : Float}

def bitsOf (x : Float) : BitVec Format.binary64.numBits :=
  x.toBits.toBitVec

-- The sign bit of a double, and its other bits.
def signOf (x : Float) : Sign :=
  Sign.ofBitVec (unpackSign (bitsOf x))

def restOf (x : Float) : Nat :=
  unsigned (bitsOf x)

theorem toNat_toBits (x : Float) :
    x.toBits.toNat = (signOf x).toBitVec.toNat * 9223372036854775808 + restOf x := by
  have hbits := toNat_packComponents (signOf x) (bitsOf x)
  rwa [signOf, packComponents_unpackSign_unpackExponent_unpackMantissa] at hbits

theorem magnitude_eq (x : Float) : magnitude x = restOf x := by
  have hlt : restOf x < 9223372036854775808 := unsigned_lt _
  have hhalf : Nat.pow 2 63 = 9223372036854775808 := rfl
  rw [magnitude, toNat_toBits, hhalf]
  omega

theorem isNegative_eq (x : Float) : isNegative x = (signOf x == .negative) := by
  have hlt : restOf x < 9223372036854775808 := unsigned_lt _
  have hhalf : Nat.pow 2 63 = 9223372036854775808 := rfl
  rw [isNegative, toNat_toBits, hhalf]
  cases signOf x with
  | positive =>
    have hbit : Sign.positive.toBitVec.toNat = 0 := rfl
    exact decide_eq_false (by omega)
  | negative =>
    have hbit : Sign.negative.toBitVec.toNat = 1 := rfl
    exact decide_eq_true (by omega)

theorem mantissa_lt (x : Float) : (unpackMantissa (bitsOf x)).toNat < 4503599627370496 :=
  (unpackMantissa (bitsOf x)).isLt

theorem magnitude_fields (x : Float) : magnitude x =
    (unpackExponent (bitsOf x)).toNat * 4503599627370496 + (unpackMantissa (bitsOf x)).toNat :=
  magnitude_eq x

-- Only infinities and NaNs have an exponent of ones.
theorem unpackExponent_eq_iff :
    unpackExponent (bitsOf x) = -1#11 ↔ infinity ≤ magnitude x := by
  have hexponent : (unpackExponent (bitsOf x)).toNat < 2048 :=
    (unpackExponent (bitsOf x)).isLt
  have hmantissa := mantissa_lt x
  have hones : (-1#11).toNat = 2047 := rfl
  have hinfinity : infinity = 2047 * 4503599627370496 := rfl
  rw [← BitVec.toNat_inj, hones, magnitude_fields, hinfinity]
  omega

theorem unpackExponent_ne (hx : magnitude x < infinity) :
    unpackExponent (bitsOf x) ≠ -1#11 := by
  rwa [ne_eq, unpackExponent_eq_iff, not_le]

-- What a number is worth without its sign, taken apart into a mantissa and an exponent.
def absolute : Float.Model.UnpackedFloat → Option ℚ
  | .zero _ => some 0
  | .finite _ mantissa exponent _ => some (mantissa * 2 ^ exponent)
  | .infinity _ => none
  | .notANumber => none

theorem exact_shifted {shift r : Nat} (hr : r ≤ 9007199254740992)
    (hleading : shift = 0 ∨ 4503599627370496 ≤ r) {e : ℤ} (he : e = shift - 1074) :
    exact (shift * 4503599627370496 + r) = r * 2 ^ e := by
  rw [exact, units_shifted hr hleading, he, zpow_sub₀ (by norm_num), zpow_natCast, Nat.pow_eq,
    Nat.cast_mul, Nat.cast_pow, Nat.cast_ofNat, mul_div_assoc]
  norm_cast

-- The worth of a finite double is that of its parts.
theorem absolute_unpack (hx : magnitude x < infinity) :
    absolute (unpack .binary64 (bitsOf x)) = some (exact (magnitude x)) := by
  have hmantissa := mantissa_lt x
  have hbias : (Format.binary64.exponentBias : ℤ) = 1023 := rfl
  rw [magnitude_fields, unpack]
  dsimp only
  rw [if_neg (unpackExponent_ne hx), hbias]
  split
  · next hzero =>
    have hexponent : (unpackExponent (bitsOf x)).toNat = 0 := by
      rw [hzero]
      rfl
    split
    · next hnone =>
      have hnone : (unpackMantissa (bitsOf x)).toNat = 0 := by
        rw [hnone]
        rfl
      rw [absolute, hexponent, hnone, Nat.zero_mul, exact_zero]
    · rw [absolute, hexponent]
      exact congrArg some (exact_shifted (by omega) (.inl rfl) (by norm_num)).symm
  · next hnormal =>
    have hexponent : (unpackExponent (bitsOf x)).toNat ≠ 0 := fun h =>
      hnormal (BitVec.toNat_inj.1 h)
    have hleading : (1#1 ++ unpackMantissa (bitsOf x)).toNat =
        4503599627370496 + (unpackMantissa (bitsOf x)).toNat := by
      rw [BitVec.toNat_append, ← Nat.shiftLeft_add_eq_or_of_lt (BitVec.isLt _)]
      rfl
    obtain ⟨shift, hshift⟩ := Nat.exists_eq_succ_of_ne_zero hexponent
    have hpattern : (shift + 1) * 4503599627370496 +
        (unpackMantissa (bitsOf x)).toNat = shift * 4503599627370496 +
          (4503599627370496 + (unpackMantissa (bitsOf x)).toNat) := by omega
    rw [absolute, hleading, hshift, Nat.succ_eq_add_one, hpattern]
    refine congrArg some (exact_shifted (by omega) (.inr (by omega)) ?_).symm
    push_cast
    ring

-- The patterns below that of infinity are the finite doubles.
theorem isFinite_iff : x.isFinite = true ↔ magnitude x < infinity := by
  have hunpack : x.isFinite = (unpack .binary64 (bitsOf x)).isFinite := rfl
  rw [hunpack]
  constructor
  · intro h
    by_contra hx
    rw [unpack, if_pos (unpackExponent_eq_iff.2 (not_lt.1 hx))] at h
    split at h
    · cases h
    · cases h
  · intro hx
    have habsolute := absolute_unpack hx
    cases hparts : unpack .binary64 (bitsOf x) with
    | zero s => rfl
    | finite s m e hm => rfl
    | infinity s =>
      rw [hparts] at habsolute
      cases habsolute
    | notANumber =>
      rw [hparts] at habsolute
      cases habsolute

theorem bitsOf_neg (hx : magnitude x < infinity) :
    bitsOf (-x) = flipped (bitsOf x) :=
  pack_neg (by decide) (decide_eq_false fun h => unpackExponent_ne hx h.1)

theorem magnitude_neg (hx : magnitude x < infinity) : magnitude (-x) = magnitude x := by
  rw [magnitude_eq, magnitude_eq, restOf, bitsOf_neg hx, restOf, unsigned, unsigned, flipped,
    unpackExponent_packComponents, unpackMantissa_packComponents]

theorem isNegative_neg (hx : magnitude x < infinity) : isNegative (-x) = !isNegative x := by
  have hsign : signOf (-x) = -signOf x := by
    rw [signOf, bitsOf_neg hx, flipped, unpackSign_packComponents, Sign.ofBitVec_toBitVec]
    rfl
  rw [isNegative_eq, isNegative_eq, hsign]
  cases signOf x <;> rfl

theorem neg_neg_of_finite (hx : magnitude x < infinity) : -(-x) = x := by
  have hneg := magnitude_neg hx
  refine eq_of_magnitude_eq ?_ ?_
  · rw [magnitude_neg (by rwa [hneg]), hneg]
  · rw [isNegative_neg (by rwa [hneg]), isNegative_neg hx, Bool.not_not]

-- A double without a sign is the one with its pattern.
theorem ofPattern_magnitude (h : isNegative x = false) : ofPattern (magnitude x) = x := by
  have hlt : x.toBits.toNat < Nat.pow 2 63 := not_le.1 (of_decide_eq_false h)
  rw [ofPattern, magnitude, Nat.mod_eq_of_lt hlt, UInt64.ofNat_toNat, Float.ofBits_toBits]

end

end Lox.Number
