import Lox.Proofs.Number.Answers
import Mathlib.Data.Nat.Digits.Lemmas

namespace Lox.Number

-- A decimal is the shortest for a double if it rounds to it, no other that does has fewer digits,
-- and of those with as many digits none is nearer; if another is as near the coefficient is even.
structure IsShortest (b : Nat) (v : ℚ) (c : Nat) (e : ℤ) : Prop where
  value : v = c * 10 ^ e
  rounds : RoundsTo v b
  fewest : ∀ (c' : Nat) (e' : ℤ), RoundsTo (c' * 10 ^ e') b →
    (Nat.digits 10 c).length ≤ (Nat.digits 10 c').length
  nearest : ∀ (c' : Nat) (e' : ℤ), RoundsTo (c' * 10 ^ e') b →
    (Nat.digits 10 c').length = (Nat.digits 10 c).length →
    |v - exact b| < |c' * 10 ^ e' - exact b| ∨
      |v - exact b| = |c' * 10 ^ e' - exact b| ∧ (v = c' * 10 ^ e' ∨ c % 2 = 0)

-- Where the patterns do not start from zero, the next one is worth little more.
theorem units_succ_le {n b : Nat} (hb : n ≤ b) (hn : n ≤ 4503599627370496) :
    n * units (b + 1) ≤ (n + 1) * units b := by
  obtain ⟨shift, hshift⟩ : ∃ shift, shift = b / 4503599627370496 - 1 := ⟨_, rfl⟩
  obtain ⟨r, hr⟩ : ∃ r, b = shift * 4503599627370496 + r :=
    Nat.exists_eq_add_of_le (by omega)
  have hnext : b + 1 = shift * 4503599627370496 + (r + 1) := by omega
  rw [hnext, hr, units_shifted (by omega) (by omega), units_shifted (by omega) (by omega),
    ← Nat.mul_assoc, ← Nat.mul_assoc]
  refine Nat.mul_le_mul_right _ ?_
  rw [Nat.mul_add, Nat.add_mul]
  omega

-- Among the least doubles there is one that a power of ten rounds to: twice the least of all, which is
-- 9.88e-324.
theorem power_of_small {b place : Nat} (hb : 0 < b) (hsmall : b < 10)
    (h : ReadsBack b ⟨1, place⟩) : b = 2 ∧ place = 1 := by
  have hunits : units b + units (b + 1) ≤ 20 := by
    have hle : units b ≤ 10 := units_strictMono.monotone hsmall.le
    have hle' : units (b + 1) ≤ 10 := units_strictMono.monotone hsmall
    omega
  have hplace : place < 2 := by
    by_contra hlt
    have hhigh := h.le_high
    have hfew : 20 * Nat.pow 10 324 < Nat.pow 10 2 * Nat.pow 2 1075 := by decide +kernel
    rw [Decimal.worth, Nat.one_mul] at hhigh
    dsimp only at hhigh
    generalize Nat.pow 2 1075 = halves at *
    generalize Nat.pow 10 324 = scale at *
    refine absurd hhigh (not_le.2 ?_)
    calc (units b + units (b + 1)) * scale ≤ 20 * scale := Nat.mul_le_mul_right scale hunits
      _ < Nat.pow 10 2 * halves := hfew
      _ ≤ Nat.pow 10 place * halves :=
        Nat.mul_le_mul_right halves (Nat.pow_le_pow_right (by omega) (by omega))
  have hall : ∀ b < 10, ∀ place < 2, 0 < b → ReadsBack b ⟨1, place⟩ → b = 2 ∧ place = 1 := by
    decide +kernel
  exact hall b hsmall place hplace hb h

theorem exact_succ_le {n b : Nat} (hb : n ≤ b) (hn : n ≤ 4503599627370496) :
    n * exact (b + 1) ≤ (n + 1) * exact b := by
  have hunits : (n * units (b + 1) : ℚ) ≤ (n + 1) * units b := by
    exact_mod_cast units_succ_le hb hn
  rw [exact, exact, ← mul_div_assoc, ← mul_div_assoc]
  exact div_le_div_of_nonneg_right hunits (by positivity)

theorem value_one (c place : Nat) : Decimal.value ⟨c, place⟩ = c * Decimal.value ⟨1, place⟩ := by
  rw [Decimal.value, Decimal.value, Nat.cast_one, one_mul]

theorem value_one_pos (place : Nat) : 0 < Decimal.value ⟨1, place⟩ :=
  mul_pos (by norm_num) (zpow_pos (by norm_num) _)

theorem value_succ (c place : Nat) :
    Decimal.value ⟨c, place + 1⟩ = Decimal.value ⟨c * 10, place⟩ := by
  have hplace : ((place + 1 : Nat) : ℤ) - 324 = (place - 324) + 1 := by
    push_cast
    ring
  rw [Decimal.value, Decimal.value, hplace, zpow_add_one₀ (by norm_num)]
  push_cast
  ring

-- A power of ten is nearer to a double than nine tenths of it, if both round to the double. Doubles
-- are that far apart only next to zero, and there it happens once.
theorem power_nearer {b place : Nat} (hb : 0 < b) (hfinite : b < infinity) {v : ℚ}
    (hv : RoundsTo v b) (hle : 10 * v ≤ 9 * Decimal.value ⟨1, place⟩)
    (hpower : RoundsTo (Decimal.value ⟨1, place⟩) b) :
    v + Decimal.value ⟨1, place⟩ < 2 * exact b := by
  have hpos := value_one_pos place
  obtain hexact | hexact := lt_or_ge (exact b) (Decimal.value ⟨1, place⟩)
  · have hsmall : b < 10 := by
      by_contra hlarge
      have hbelow : exact (b - 1) + exact b ≤ 2 * v := by
        obtain h | ⟨h, -⟩ := ((roundsTo_iff_neighbours hb hfinite).1 hv).1
        · exact h.le
        · exact h.le
      have habove : 2 * Decimal.value ⟨1, place⟩ ≤ exact b + exact (b + 1) := by
        obtain h | ⟨h, -⟩ := ((roundsTo_iff_neighbours hb hfinite).1 hpower).2
        · exact h.le
        · exact h.le
      have hprevious := @exact_succ_le 9 (b - 1) (by omega) (by norm_num)
      have hnext := @exact_succ_le 10 b (by omega) (by norm_num)
      rw [Nat.sub_add_cancel hb] at hprevious
      push_cast at hprevious hnext
      linarith
    obtain ⟨rfl, rfl⟩ := power_of_small hb hsmall ((readsBack_iff hb hfinite).2 hpower)
    have hclose : Decimal.value ⟨9, 0⟩ + Decimal.value ⟨10, 0⟩ < 2 * exact 2 := by
      rw [lt_twice_iff]
      decide +kernel
    have hten := value_succ 1 0
    have hnine := value_one 9 0
    have htimes := value_one 10 0
    push_cast at hnine htimes
    linarith
  · linarith

-- A number is worth at least the power of ten that its first digit counts, and less than the next.
theorem power_le {c : Nat} (hc : c ≠ 0) (e : ℤ) :
    (10 : ℚ) ^ ((Nat.digits 10 c).length - 1 + e : ℤ) ≤ c * 10 ^ e := by
  have hlength : 0 < (Nat.digits 10 c).length :=
    List.length_pos_of_ne_nil (Nat.digits_ne_nil_iff_ne_zero.2 hc)
  obtain ⟨n, hn⟩ : ∃ n, (Nat.digits 10 c).length = n + 1 := Nat.exists_eq_succ_of_ne_zero hlength.ne'
  have hle : 10 ^ n ≤ c := by
    have hdigits := Nat.base_pow_length_digits_le 10 c (by omega) hc
    rw [hn, Nat.pow_succ'] at hdigits
    exact Nat.le_of_mul_le_mul_left hdigits (by omega)
  have hpower : (10 : ℚ) ^ n ≤ c := by exact_mod_cast hle
  rw [hn, Nat.cast_add, Nat.cast_one, add_sub_cancel_right, zpow_add₀ (by norm_num), zpow_natCast]
  exact mul_le_mul_of_nonneg_right hpower (zpow_nonneg (by norm_num) _)

theorem lt_power (c : Nat) (e : ℤ) :
    (c * 10 ^ e : ℚ) < 10 ^ ((Nat.digits 10 c).length + e : ℤ) := by
  have hlt : c < 10 ^ (Nat.digits 10 c).length := Nat.lt_base_pow_length_digits (by omega)
  have hpower : (c : ℚ) < 10 ^ (Nat.digits 10 c).length := by exact_mod_cast hlt
  rw [zpow_add₀ (by norm_num), zpow_natCast]
  exact mul_lt_mul_of_pos_right hpower (zpow_pos (by norm_num) _)

-- A single digit of a finer place is worth nine tenths of a step at most.
theorem digit_le {c place : Nat} {e : ℤ} (hc : c < 10) (he : e < (place : ℤ) - 324) :
    10 * (c * 10 ^ e) ≤ 9 * Decimal.value ⟨1, place⟩ := by
  have hnine : (c : ℚ) ≤ 9 := by exact_mod_cast Nat.le_of_lt_succ hc
  have hstep : (10 : ℚ) ^ (e + 1) ≤ 10 ^ ((place : ℤ) - 324) :=
    zpow_le_zpow_right₀ (by norm_num) he
  calc (10 * (c * 10 ^ e) : ℚ) = c * 10 ^ (e + 1) := by
        rw [zpow_add_one₀ (by norm_num)]
        ring
    _ ≤ 9 * 10 ^ ((place : ℤ) - 324) :=
        mul_le_mul hnine hstep (zpow_nonneg (by norm_num) _) (by norm_num)
    _ = 9 * Decimal.value ⟨1, place⟩ := by
        rw [Decimal.value, Nat.cast_one, one_mul]

section

variable {b : Nat} {d : Decimal} (hb : 0 < b) (hfinite : b < infinity)

include hb hfinite

theorem Answers.place_le (h : Answers b d) {c : Nat} {e : ℤ} (hc : RoundsTo (c * 10 ^ e) b) :
    e ≤ d.place - 324 := by
  by_contra hlt
  obtain ⟨k, rfl⟩ : ∃ k : Nat, e = ((d.place + 1 : Nat) : ℤ) - 324 + k :=
    ⟨(e - (d.place + 1 - 324)).toNat, by omega⟩
  have hcoarse := h.coarsest (c * 10 ^ k)
  rw [readsBack_iff hb hfinite, Decimal.value] at hcoarse
  refine hcoarse ?_
  rw [zpow_add₀ (by norm_num), zpow_natCast] at hc
  push_cast at hc ⊢
  rwa [mul_assoc, mul_comm (_ ^ k)]

-- What rounds to a double and is worth less than the first digit of the answer leaves room for nothing
-- but a single digit.
theorem Answers.single (h : Answers b d) {c : Nat} {e : ℤ} (hc : RoundsTo (c * 10 ^ e) b)
    (hless : (Nat.digits 10 c).length + e ≤
      (Nat.digits 10 d.coefficient).length - 1 + (d.place - 324)) :
    (Nat.digits 10 d.coefficient).length = 1 ∧ RoundsTo (Decimal.value ⟨1, d.place⟩) b := by
  have hcoefficient : d.coefficient ≠ 0 :=
    (Nat.pos_of_mul_pos_right (h.readsBack.worth_pos hb)).ne'
  have hlength : 0 < (Nat.digits 10 d.coefficient).length :=
    List.length_pos_of_ne_nil (Nat.digits_ne_nil_iff_ne_zero.2 hcoefficient)
  have hle : (c * 10 ^ e : ℚ) ≤
      10 ^ ((Nat.digits 10 d.coefficient).length - 1 + (d.place - 324) : ℤ) :=
    (lt_power c e).le.trans (zpow_le_zpow_right₀ (by norm_num) hless)
  have hfirst := hc.convex ((readsBack_iff hb hfinite).1 h.readsBack) hle
    (power_le hcoefficient (d.place - 324))
  rw [← one_mul (10 ^ _), ← Nat.cast_one] at hfirst
  have hplace := h.place_le hb hfinite hfirst
  have hone : (Nat.digits 10 d.coefficient).length = 1 := by omega
  have hexponent : ((1 : Nat) : ℤ) - 1 + (d.place - 324) = d.place - 324 := by omega
  rw [hone, hexponent] at hfirst
  exact ⟨hone, hfirst⟩

theorem Answers.fewest (h : Answers b d) {c : Nat} {e : ℤ} (hc : RoundsTo (c * 10 ^ e) b) :
    (Nat.digits 10 d.coefficient).length ≤ (Nat.digits 10 c).length := by
  have hplace := h.place_le hb hfinite hc
  by_contra hlt
  obtain ⟨hone, -⟩ := h.single hb hfinite hc (by omega)
  have hnone : (Nat.digits 10 c).length = 0 := by omega
  have hzero : c = 0 := Nat.digits_eq_nil_iff_eq_zero.1 (List.length_eq_zero_iff.1 hnone)
  rw [hzero, Nat.cast_zero, zero_mul] at hc
  have hzero' := @roundsTo_exact 0 (by decide)
  rw [exact_zero] at hzero'
  exact hb.ne (hzero'.unique hc)

-- At the place of the answer the search has compared what there is. From a finer place only a single
-- digit is possible, which is less than the power of ten that then reads back as well.
theorem Answers.nearer (h : Answers b d) {c : Nat} {e : ℤ} (hc : RoundsTo (c * 10 ^ e) b)
    (hlength : (Nat.digits 10 c).length = (Nat.digits 10 d.coefficient).length) :
    |d.value - exact b| < |c * 10 ^ e - exact b| ∨
      |d.value - exact b| = |c * 10 ^ e - exact b| ∧
        (d.value = c * 10 ^ e ∨ d.coefficient % 2 = 0) := by
  obtain hlt | rfl := (h.place_le hb hfinite hc).lt_or_eq
  · left
    obtain ⟨hone, hpower⟩ := h.single hb hfinite hc (by omega)
    have hdigit : c < 10 := by
      have hlt : c < 10 ^ (Nat.digits 10 c).length := Nat.lt_base_pow_length_digits (by omega)
      rwa [hlength, hone, Nat.pow_one] at hlt
    have hnine := digit_le hdigit hlt
    have hclose := power_nearer hb hfinite hc hnine hpower
    have hpos := value_one_pos d.place
    have hless : |Decimal.value ⟨1, d.place⟩ - exact b| < |c * 10 ^ e - exact b| := by
      rw [abs_sub_comm, abs_sub_comm (c * 10 ^ e : ℚ), nearer_greater_iff (by linarith)]
      exact hclose
    obtain hnearest | ⟨hnearest, -⟩ := h.nearest 1 ((readsBack_iff hb hfinite).2 hpower)
    · exact hnearest.trans hless
    · exact hnearest.trans_lt hless
  · exact h.nearest c ((readsBack_iff hb hfinite).2 hc)

end

-- Zero has no digits.
theorem isShortest_zero : IsShortest 0 0 0 0 := by
  have hzero := @roundsTo_exact 0 (by decide)
  rw [exact_zero] at hzero
  refine ⟨by norm_num, hzero, fun c e _ => Nat.zero_le _, fun c e _ hlength => .inr ?_⟩
  have hnone : c = 0 := Nat.digits_eq_nil_iff_eq_zero.1 (List.length_eq_zero_iff.1 hlength)
  rw [hnone, Nat.cast_zero, zero_mul]
  exact ⟨rfl, .inl rfl⟩

-- The search finds the shortest decimal.
theorem isShortest_shortest {b : Nat} (hb : 0 < b) (hfinite : b < infinity) :
    IsShortest b (shortest b).value (shortest b).coefficient ((shortest b).place - 324) := by
  have h := answers_shortest hb hfinite
  exact ⟨rfl, (readsBack_iff hb hfinite).1 h.readsBack, fun _ _ => h.fewest hb hfinite,
    fun _ _ => h.nearer hb hfinite⟩

end Lox.Number
