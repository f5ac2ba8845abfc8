import Lox.Number.Nearest
import Lox.Proofs.Number.Shortest
import Mathlib.Algebra.Order.Field.Rat
import Mathlib.Tactic.FieldSimp
import Mathlib.Tactic.Linarith
import Mathlib.Tactic.Positivity
import Mathlib.Tactic.Ring

namespace Lox.Number

-- What the double with the pattern `b` and no sign is worth.
def exact (b : Nat) : ℚ :=
  units b / 2 ^ 1074

theorem exact_zero : exact 0 = 0 := by
  rw [exact, units, if_pos (by decide), Nat.cast_zero, zero_div]

-- The double nearest to a value; a tie goes to the even pattern. Infinity counts as the double that
-- would come next.
def RoundsTo (v : ℚ) (b : Nat) : Prop :=
  b ≤ infinity ∧ ∀ other ≤ infinity, other ≠ b →
    |v - exact b| < |v - exact other| ∨ |v - exact b| = |v - exact other| ∧ b % 2 = 0

theorem exact_strictMono : StrictMono exact := fun a b h => by
  have hunits : (units a : ℚ) < units b := by exact_mod_cast units_strictMono h
  have hpos : (0 : ℚ) < 2 ^ 1074 := by positivity
  exact div_lt_div_of_pos_right hunits hpos

-- Of two values the lesser is nearer to what lies below the middle between them.
theorem nearer_lesser_iff {a a' v : ℚ} (h : a < a') : |v - a| < |v - a'| ↔ 2 * v < a + a' := by
  have hsquares : (v - a') ^ 2 - (v - a) ^ 2 = (a' - a) * (a + a' - 2 * v) := by ring
  have hpos : 0 < a' - a := sub_pos.2 h
  rw [← sq_lt_sq, ← sub_pos, hsquares, mul_pos_iff_of_pos_left hpos, sub_pos]

theorem nearer_greater_iff {a a' v : ℚ} (h : a < a') : |v - a'| < |v - a| ↔ a + a' < 2 * v := by
  have hsquares : (v - a) ^ 2 - (v - a') ^ 2 = (a' - a) * (2 * v - (a + a')) := by ring
  have hpos : 0 < a' - a := sub_pos.2 h
  rw [← sq_lt_sq, ← sub_pos, hsquares, mul_pos_iff_of_pos_left hpos, sub_pos]

theorem as_near_iff {a a' v : ℚ} (h : a < a') : |v - a| = |v - a'| ↔ 2 * v = a + a' := by
  have hlesser := nearer_lesser_iff (v := v) h
  have hgreater := nearer_greater_iff (v := v) h
  constructor
  · intro heq
    exact le_antisymm (not_lt.1 fun hlt => absurd (hgreater.2 hlt) (by simp [heq]))
      (not_lt.1 fun hlt => absurd (hlesser.2 hlt) (by simp [heq]))
  · intro heq
    exact le_antisymm (not_lt.1 fun hlt => absurd (hgreater.1 hlt) (by simp [heq]))
      (not_lt.1 fun hlt => absurd (hlesser.1 hlt) (by simp [heq]))

-- A value rounds to a double if it lies between the middles to all others. The middles themselves
-- belong to an even pattern.
structure Amid (v : ℚ) (b : Nat) : Prop where
  finite : b ≤ infinity
  below : ∀ other < b,
    exact other + exact b < 2 * v ∨ exact other + exact b = 2 * v ∧ b % 2 = 0
  above : ∀ other ≤ infinity, b < other →
    2 * v < exact b + exact other ∨ 2 * v = exact b + exact other ∧ b % 2 = 0

theorem roundsTo_iff {v : ℚ} {b : Nat} : RoundsTo v b ↔ Amid v b := by
  constructor
  · rintro ⟨hb, h⟩
    refine ⟨hb, fun other hother => ?_, fun other hfinite hother => ?_⟩
    · have hlt := exact_strictMono hother
      have hnear := h other (by omega) (by omega)
      rwa [nearer_greater_iff hlt, eq_comm, as_near_iff hlt, eq_comm] at hnear
    · have hlt := exact_strictMono hother
      have hnear := h other hfinite (by omega)
      rwa [nearer_lesser_iff hlt, as_near_iff hlt] at hnear
  · rintro ⟨hb, hbelow, habove⟩
    refine ⟨hb, fun other hfinite hne => ?_⟩
    obtain hother | hother := Nat.lt_or_gt_of_ne hne
    · have hlt := exact_strictMono hother
      rw [nearer_greater_iff hlt, eq_comm, as_near_iff hlt, eq_comm]
      exact hbelow other hother
    · have hlt := exact_strictMono hother
      rw [nearer_lesser_iff hlt, as_near_iff hlt]
      exact habove other hfinite hother

theorem RoundsTo.not_lt {v : ℚ} {b b' : Nat} (h : RoundsTo v b) (h' : RoundsTo v b') : ¬ b < b' := by
  intro hlt
  have hb := roundsTo_iff.1 h
  have hb' := roundsTo_iff.1 h'
  have heven : 2 * v = exact b + exact b' ∧ b % 2 = 0 ∧ b' % 2 = 0 := by
    obtain hless | ⟨heq, hb⟩ := hb.above b' hb'.finite hlt
    · obtain hless' | ⟨heq', -⟩ := hb'.below b hlt
      · exact absurd (hless.trans hless') (lt_irrefl _)
      · exact absurd heq'.symm hless.ne
    · obtain hless' | ⟨-, hb'⟩ := hb'.below b hlt
      · exact absurd heq.symm hless'.ne
      · exact ⟨heq, hb, hb'⟩
  -- the odd pattern after the lesser one is nearer than both
  have hnext : exact (b + 1) < exact b' := exact_strictMono (by omega)
  obtain habove | ⟨habove, -⟩ := hb.above (b + 1) (by have := hb'.finite; omega) (by omega)
  · linarith [heven.1]
  · linarith [heven.1]

theorem RoundsTo.unique {v : ℚ} {b b' : Nat} (h : RoundsTo v b) (h' : RoundsTo v b') : b = b' := by
  have hle := h.not_lt h'
  have hge := h'.not_lt h
  omega

-- What lies between two values that round to a double rounds to it.
theorem RoundsTo.convex {u v w : ℚ} {b : Nat} (hu : RoundsTo u b) (hw : RoundsTo w b) (huv : u ≤ v)
    (hvw : v ≤ w) : RoundsTo v b := by
  rw [roundsTo_iff] at hu hw ⊢
  refine ⟨hu.finite, fun other hother => ?_, fun other hfinite hother => ?_⟩
  · obtain h | ⟨h, heven⟩ := hu.below other hother
    · left
      linarith
    · obtain huv | rfl := huv.lt_or_eq
      · left
        linarith
      · exact .inr ⟨h, heven⟩
  · obtain h | ⟨h, heven⟩ := hw.above other hfinite hother
    · left
      linarith
    · obtain hvw | rfl := hvw.lt_or_eq
      · left
        linarith
      · exact .inr ⟨h, heven⟩

-- Rounding a quotient to a whole number is off by half at most, and the even one of two is taken.
theorem roundHalfEven_below (n : Nat) {d : Nat} (hd : 0 < d) :
    2 * (roundHalfEven n d * d) < 2 * n + d ∨
      2 * (roundHalfEven n d * d) = 2 * n + d ∧ roundHalfEven n d % 2 = 0 := by
  have hdiv := Nat.div_add_mod' n d
  have hmod := Nat.mod_lt n hd
  unfold roundHalfEven
  split
  · omega
  · rw [Nat.add_mul, Nat.one_mul]
    generalize hq : n / d = q at *
    generalize q * d = t at *
    omega

theorem roundHalfEven_above (n : Nat) {d : Nat} (hd : 0 < d) :
    2 * n < 2 * (roundHalfEven n d * d) + d ∨
      2 * n = 2 * (roundHalfEven n d * d) + d ∧ roundHalfEven n d % 2 = 0 := by
  have hdiv := Nat.div_add_mod' n d
  have hmod := Nat.mod_lt n hd
  unfold roundHalfEven
  split
  · generalize hq : n / d = q at *
    generalize q * d = t at *
    omega
  · rw [Nat.add_mul, Nat.one_mul]
    omega

-- The pattern whose bits behind the leading one are cut off `shift` places to the left.
theorem units_shifted {shift r : Nat} (hr : r ≤ 9007199254740992)
    (hleading : shift = 0 ∨ 4503599627370496 ≤ r) :
    units (shift * 4503599627370496 + r) = r * Nat.pow 2 shift := by
  have hpow : Nat.pow 2 52 = 4503599627370496 := rfl
  unfold units
  rw [hpow]
  dsimp only
  by_cases hsmall : r < 4503599627370496
  · obtain rfl : shift = 0 := by omega
    rw [if_pos (by omega), Nat.zero_mul, Nat.zero_add]
    exact (Nat.mul_one r).symm
  rw [if_neg (by omega)]
  by_cases hlast : r = 9007199254740992
  · subst hlast
    have hdiv : (shift * 4503599627370496 + 9007199254740992) / 4503599627370496 - 1 = shift + 1 := by
      omega
    have hmod : (shift * 4503599627370496 + 9007199254740992) % 4503599627370496 = 0 := by omega
    have hdouble : Nat.pow 2 (shift + 1) = 2 * Nat.pow 2 shift := Nat.pow_succ'
    rw [hdiv, hmod, hdouble]
    omega
  · have hdiv : (shift * 4503599627370496 + r) / 4503599627370496 - 1 = shift := by omega
    have hmod : 4503599627370496 + (shift * 4503599627370496 + r) % 4503599627370496 = r := by omega
    rw [hdiv, hmod]

-- The pattern for so many units, before `infinity` is taken into account.
def unclamped (n d : Nat) : Nat :=
  let shift := Nat.log2 (n / d) - 52
  shift * 4503599627370496 + roundHalfEven n (d * Nat.pow 2 shift)

theorem nearest_eq (n d : Nat) :
    nearest n d = min infinity (unclamped (n * Nat.pow 2 1074) d) := rfl

-- A value cut to its leading bits: after the shift it has at most 53 of them, and exactly so many if
-- there was anything to shift.
structure Leading (n d shift : Nat) : Prop where
  pos : 0 < d
  fit : n < 9007199254740992 * (d * Nat.pow 2 shift)
  full : shift = 0 ∨ 4503599627370496 * (d * Nat.pow 2 shift) ≤ n

theorem leading_log2 (n : Nat) {d : Nat} (hd : 0 < d) : Leading n d (Nat.log2 (n / d) - 52) := by
  have hlt : n / d < 2 ^ (Nat.log2 (n / d) - 52 + 53) :=
    Nat.lt_log2_self.trans_le (Nat.pow_le_pow_right (by omega) (by omega))
  refine ⟨hd, ?_, ?_⟩
  · calc n < 2 ^ (Nat.log2 (n / d) - 52 + 53) * d := (Nat.div_lt_iff_lt_mul hd).1 hlt
      _ = 9007199254740992 * (d * Nat.pow 2 (Nat.log2 (n / d) - 52)) := by
        rw [Nat.pow_add, Nat.pow_eq]
        ring
  · by_cases hsmall : Nat.log2 (n / d) ≤ 52
    · exact .inl (Nat.sub_eq_zero_of_le hsmall)
    · have hne : n / d ≠ 0 := by
        intro hzero
        rw [hzero] at hsmall
        exact hsmall (by decide)
      have hlog : Nat.log2 (n / d) - 52 + 52 = Nat.log2 (n / d) := by omega
      right
      calc 4503599627370496 * (d * Nat.pow 2 (Nat.log2 (n / d) - 52))
          = 2 ^ (Nat.log2 (n / d) - 52 + 52) * d := by
            rw [Nat.pow_add, Nat.pow_eq]
            ring
        _ ≤ n / d * d := by
            rw [hlog]
            exact Nat.mul_le_mul_right d (Nat.log2_self_le hne)
        _ ≤ n := Nat.div_mul_le_self n d

namespace Leading

variable {n d shift r : Nat}

theorem step_pos (h : Leading n d shift) : 0 < d * Nat.pow 2 shift :=
  Nat.mul_pos h.pos (Nat.pow_pos (by omega))

-- What is left after the shift is rounded to at most 53 bits or to the next power of two.
theorem rounded (h : Leading n d shift) (hr : roundHalfEven n (d * Nat.pow 2 shift) = r) :
    r ≤ 9007199254740992 ∧ (shift = 0 ∨ 4503599627370496 ≤ r) := by
  have hbelow := roundHalfEven_below n h.step_pos
  have habove := roundHalfEven_above n h.step_pos
  have hfit := h.fit
  have hfull := h.full
  rw [hr] at hbelow habove
  generalize d * Nat.pow 2 shift = step at *
  constructor
  · by_contra hlt
    have hmany : 9007199254740993 * step ≤ r * step := Nat.mul_le_mul_right step (by omega)
    omega
  · refine hfull.imp_right fun hfull => ?_
    by_contra hlt
    have hfew : (r + 1) * step ≤ 4503599627370496 * step := Nat.mul_le_mul_right step (by omega)
    rw [Nat.add_mul] at hfew
    omega

-- The value is not below the middle between the rounded pattern and any lesser one. At a power of two
-- the lesser ones are closer together, but there nothing was rounded up.
theorem below (h : Leading n d shift) (hr : roundHalfEven n (d * Nat.pow 2 shift) = r) {other : Nat}
    (hother : other < shift * 4503599627370496 + r) :
    (units other + units (shift * 4503599627370496 + r)) * d < 2 * n ∨
      (units other + units (shift * 4503599627370496 + r)) * d = 2 * n ∧
        (shift * 4503599627370496 + r) % 2 = 0 := by
  obtain ⟨hfew, hleading⟩ := h.rounded hr
  have hunits := units_shifted hfew hleading
  have hless := units_strictMono hother
  rw [hunits] at hless ⊢
  by_cases hedge : shift ≠ 0 ∧ r = 4503599627370496
  · obtain ⟨hshift, rfl⟩ := hedge
    have hfull := h.full.resolve_left hshift
    left
    calc (units other + 4503599627370496 * Nat.pow 2 shift) * d
        < (4503599627370496 * Nat.pow 2 shift + 4503599627370496 * Nat.pow 2 shift) * d :=
          Nat.mul_lt_mul_of_pos_right (by omega) h.pos
      _ = 2 * (4503599627370496 * (d * Nat.pow 2 shift)) := by ring
      _ ≤ 2 * n := by omega
  · obtain ⟨k, rfl⟩ : ∃ k, r = k + 1 := Nat.exists_eq_succ_of_ne_zero (by omega)
    have hprevious := @units_shifted shift k (by omega) (by omega)
    have hle : units other ≤ units (shift * 4503599627370496 + k) :=
      units_strictMono.monotone (by omega)
    rw [hprevious] at hle
    have hsum : (units other + (k + 1) * Nat.pow 2 shift) * d ≤
        2 * (k * (d * Nat.pow 2 shift)) + d * Nat.pow 2 shift :=
      calc (units other + (k + 1) * Nat.pow 2 shift) * d
          ≤ (k * Nat.pow 2 shift + (k + 1) * Nat.pow 2 shift) * d :=
            Nat.mul_le_mul_right d (by omega)
        _ = 2 * (k * (d * Nat.pow 2 shift)) + d * Nat.pow 2 shift := by ring
    have hbelow := roundHalfEven_below n h.step_pos
    rw [hr, Nat.add_mul k 1, Nat.one_mul] at hbelow
    omega

theorem above (h : Leading n d shift) (hr : roundHalfEven n (d * Nat.pow 2 shift) = r) {other : Nat}
    (hother : shift * 4503599627370496 + r < other) :
    2 * n < (units (shift * 4503599627370496 + r) + units other) * d ∨
      2 * n = (units (shift * 4503599627370496 + r) + units other) * d ∧
        (shift * 4503599627370496 + r) % 2 = 0 := by
  obtain ⟨hfew, hleading⟩ := h.rounded hr
  have hunits := units_shifted hfew hleading
  have hmore := units_strictMono hother
  rw [hunits] at hmore ⊢
  by_cases hedge : r = 9007199254740992
  · subst hedge
    have hfit := h.fit
    left
    calc 2 * n < 2 * (9007199254740992 * (d * Nat.pow 2 shift)) := by omega
      _ = (9007199254740992 * Nat.pow 2 shift + 9007199254740992 * Nat.pow 2 shift) * d := by ring
      _ ≤ (9007199254740992 * Nat.pow 2 shift + units other) * d :=
        Nat.mul_le_mul_right d (by omega)
  · have hnext := @units_shifted shift (r + 1) (by omega) (by omega)
    have hle : units (shift * 4503599627370496 + (r + 1)) ≤ units other :=
      units_strictMono.monotone (by omega)
    rw [hnext] at hle
    have hsum : 2 * (r * (d * Nat.pow 2 shift)) + d * Nat.pow 2 shift ≤
        (r * Nat.pow 2 shift + units other) * d :=
      calc 2 * (r * (d * Nat.pow 2 shift)) + d * Nat.pow 2 shift
          = (r * Nat.pow 2 shift + (r + 1) * Nat.pow 2 shift) * d := by ring
        _ ≤ (r * Nat.pow 2 shift + units other) * d := Nat.mul_le_mul_right d (by omega)
    have habove := roundHalfEven_above n h.step_pos
    rw [hr] at habove
    omega

end Leading

section

variable (a b n : Nat) {d : Nat} (hd : 0 < d)
include hd

-- The middle between two doubles compared with so many units.
theorem middle_lt_iff :
    exact a + exact b < 2 * (n / d / 2 ^ 1074 : ℚ) ↔ (units a + units b) * d < 2 * n := by
  have hscale : (0 : ℚ) < 2 ^ 1074 := by positivity
  have hdenominator : (0 : ℚ) < d := Nat.cast_pos.2 hd
  rw [exact, exact, ← add_div, ← mul_div_assoc, div_lt_div_iff_of_pos_right hscale,
    ← mul_div_assoc, lt_div_iff₀ hdenominator]
  exact_mod_cast Iff.rfl

theorem lt_middle_iff :
    2 * (n / d / 2 ^ 1074 : ℚ) < exact a + exact b ↔ 2 * n < (units a + units b) * d := by
  have hscale : (0 : ℚ) < 2 ^ 1074 := by positivity
  have hdenominator : (0 : ℚ) < d := Nat.cast_pos.2 hd
  rw [exact, exact, ← add_div, ← mul_div_assoc, div_lt_div_iff_of_pos_right hscale,
    ← mul_div_assoc, div_lt_iff₀ hdenominator]
  exact_mod_cast Iff.rfl

theorem middle_eq_iff :
    exact a + exact b = 2 * (n / d / 2 ^ 1074 : ℚ) ↔ (units a + units b) * d = 2 * n := by
  rw [le_antisymm_iff, ← not_lt, ← not_lt, lt_middle_iff a b n hd, middle_lt_iff a b n hd]
  omega

theorem eq_middle_iff :
    2 * (n / d / 2 ^ 1074 : ℚ) = exact a + exact b ↔ 2 * n = (units a + units b) * d := by
  rw [eq_comm, middle_eq_iff a b n hd, eq_comm]

end

theorem roundsTo_unclamped (n : Nat) {d : Nat} (hd : 0 < d) :
    RoundsTo (n / d / 2 ^ 1074) (min infinity (unclamped n d)) := by
  have hleading := leading_log2 n hd
  have hbelow {other : Nat} (hother : other < unclamped n d) :
      exact other + exact (unclamped n d) < 2 * (n / d / 2 ^ 1074 : ℚ) ∨
        exact other + exact (unclamped n d) = 2 * (n / d / 2 ^ 1074 : ℚ) ∧
          unclamped n d % 2 = 0 := by
    rw [middle_lt_iff _ _ _ hd, middle_eq_iff _ _ _ hd]
    exact hleading.below rfl hother
  have habove {other : Nat} (hother : unclamped n d < other) :
      2 * (n / d / 2 ^ 1074 : ℚ) < exact (unclamped n d) + exact other ∨
        2 * (n / d / 2 ^ 1074 : ℚ) = exact (unclamped n d) + exact other ∧
          unclamped n d % 2 = 0 := by
    rw [lt_middle_iff _ _ _ hd, eq_middle_iff _ _ _ hd]
    exact hleading.above rfl hother
  rw [roundsTo_iff]
  generalize (n / d / 2 ^ 1074 : ℚ) = v at *
  obtain hgt | hle := Nat.lt_or_ge infinity (unclamped n d)
  · rw [Nat.min_eq_left hgt.le]
    refine ⟨le_rfl, fun other hother => .inl ?_, fun other hle hother => by omega⟩
    have hother' := exact_strictMono hother
    have hgt' := exact_strictMono hgt
    obtain hlt | ⟨heq, -⟩ := hbelow hgt
    · linarith
    · linarith
  · rw [Nat.min_eq_right hle]
    exact ⟨hle, fun other hother => hbelow hother, fun other _ hother => habove hother⟩

theorem scaled_quotient {k m n : Nat} (h : m = n * Nat.pow 2 k) (d : Nat) :
    (m / d / 2 ^ k : ℚ) = n / d := by
  rw [h, Nat.pow_eq, Nat.cast_mul, Nat.cast_pow, Nat.cast_ofNat, div_right_comm,
    mul_div_cancel_right₀ _ (by positivity)]

-- Rounding a quotient gives the double that is nearest to it.
theorem roundsTo_nearest (n : Nat) {d : Nat} (hd : 0 < d) : RoundsTo (n / d) (nearest n d) := by
  have hnearest := nearest_eq n d
  generalize hm : n * Nat.pow 2 1074 = m at hnearest
  rw [hnearest, ← scaled_quotient hm.symm]
  exact roundsTo_unclamped m hd

end Lox.Number
