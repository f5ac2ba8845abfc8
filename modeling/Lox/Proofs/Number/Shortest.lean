import Lox.Number.Shortest
import Lox.Proofs.Number.Units

namespace Lox.Number

-- What a decimal is worth, counted in 10 ^ -324.
def Decimal.worth (d : Decimal) : Nat :=
  d.coefficient * Nat.pow 10 d.place

theorem scale_pos : 0 < Nat.pow 10 324 := by
  decide +kernel

theorem lt_next_multiple (value : Nat) {m n : Nat} (hstep : 0 < m * n) :
    value < (value / (m * n) + 1) * m * n ∧ (value / (m * n) + 1) * m * n ≤ value + m * n := by
  have hdiv := Nat.div_add_mod' value (m * n)
  have hrest := Nat.mod_lt value hstep
  rw [Nat.mul_assoc, Nat.add_mul, Nat.one_mul]
  omega

-- A step that is less than the scale does not lead from a value to the middle before the next one.
theorem lt_middle_of_le {u u' step scale value : Nat} (hu : u < u') (hstep : step < scale)
    (hvalue : value ≤ 2 * u * scale + step) : value < (u + u') * scale := by
  calc value ≤ 2 * u * scale + step := hvalue
    _ < 2 * u * scale + scale := by omega
    _ = (2 * u + 1) * scale := (Nat.succ_mul _ _).symm
    _ ≤ (u + u') * scale := Nat.mul_le_mul_right _ (by omega)

section

variable {b b' : Nat} {d d' : Decimal}

theorem readsBack_of_lt (hlow : (units (b - 1) + units b) * Nat.pow 10 324 < d.worth * Nat.pow 2 1075)
    (hhigh : d.worth * Nat.pow 2 1075 < (units b + units (b + 1)) * Nat.pow 10 324) :
    ReadsBack b d := by
  unfold ReadsBack
  dsimp only
  split
  · exact ⟨hlow.le, hhigh.le⟩
  · exact ⟨hlow, hhigh⟩

theorem ReadsBack.low_le (h : ReadsBack b d) :
    (units (b - 1) + units b) * Nat.pow 10 324 ≤ d.worth * Nat.pow 2 1075 := by
  unfold ReadsBack at h
  dsimp only at h
  split at h
  · exact h.1
  · exact h.1.le

theorem ReadsBack.le_high (h : ReadsBack b d) :
    d.worth * Nat.pow 2 1075 ≤ (units b + units (b + 1)) * Nat.pow 10 324 := by
  unfold ReadsBack at h
  dsimp only at h
  split at h
  · exact h.2
  · exact h.2.le

-- The middles to the neighbours do not belong to an odd pattern.
theorem ReadsBack.lt_of_odd (h : ReadsBack b d) (hb : b % 2 ≠ 0) :
    (units (b - 1) + units b) * Nat.pow 10 324 < d.worth * Nat.pow 2 1075 ∧
      d.worth * Nat.pow 2 1075 < (units b + units (b + 1)) * Nat.pow 10 324 := by
  unfold ReadsBack at h
  dsimp only at h
  rwa [if_neg hb] at h

-- A decimal that reads back as a double that is not zero is not zero.
theorem ReadsBack.worth_pos (h : ReadsBack b d) (hb : 0 < b) : 0 < d.worth := by
  have hunits : 0 < units b := Nat.zero_lt_of_lt (units_strictMono hb)
  have hlow : 0 < (units (b - 1) + units b) * Nat.pow 10 324 :=
    Nat.mul_pos (by omega) scale_pos
  exact Nat.pos_of_mul_pos_right (hlow.trans_le h.low_le)

-- Of two doubles the lesser one does not read back from as much as the greater one.
theorem ReadsBack.worth_lt (h : ReadsBack b d) (h' : ReadsBack b' d') (hlt : b < b') :
    d.worth < d'.worth := by
  have hmiddle : units b + units (b + 1) ≤ units (b' - 1) + units b' :=
    Nat.add_le_add (units_strictMono.monotone (by omega)) (units_strictMono.monotone hlt)
  have hmiddle' := Nat.mul_le_mul_right (Nat.pow 10 324) hmiddle
  refine Nat.lt_of_mul_lt_mul_right (a := Nat.pow 2 1075) ?_
  by_cases hb : b % 2 = 0
  · by_cases hb' : b' % 2 = 0
    · -- between two even patterns there is a whole double
      have hgap : units (b + 1) < units b' := units_strictMono (by omega)
      have hless : units b ≤ units (b' - 1) := units_strictMono.monotone (by omega)
      have hstrict : (units b + units (b + 1)) * Nat.pow 10 324 <
          (units (b' - 1) + units b') * Nat.pow 10 324 :=
        Nat.mul_lt_mul_of_pos_right (by omega) scale_pos
      exact (h.le_high.trans_lt hstrict).trans_le h'.low_le
    · exact (h.le_high.trans hmiddle').trans_lt (h'.lt_of_odd hb').1
  · exact (h.lt_of_odd hb).2.trans_le (hmiddle'.trans h'.low_le)

theorem ReadsBack.unique (h : ReadsBack b d) (h' : ReadsBack b' d') (hworth : d.worth = d'.worth) :
    b = b' := by
  obtain hlt | heq | hgt := Nat.lt_trichotomy b b'
  · exact absurd hworth (h.worth_lt h' hlt).ne
  · exact heq
  · exact absurd hworth (h'.worth_lt h hgt).ne'

theorem readsBack_of_nearestAt {place : Nat} (h : nearestAt b place = some d) :
    ReadsBack b d := by
  unfold nearestAt at h
  dsimp only at h
  split at h
  · next hbelow =>
    split at h
    · next habove =>
      split at h
      · obtain rfl := Option.some.inj h
        exact hbelow
      · obtain rfl := Option.some.inj h
        exact habove
    · obtain rfl := Option.some.inj h
      exact hbelow
  · split at h
    · next habove =>
      obtain rfl := Option.some.inj h
      exact habove
    · cases h

-- Without an answer at a place, not even the multiple right above a double reads back as it.
theorem not_readsBack_of_nearestAt {place : Nat} (h : nearestAt b place = none) :
    ¬ ReadsBack b
      ⟨2 * units b * Nat.pow 10 324 / (Nat.pow 10 place * Nat.pow 2 1075) + 1, place⟩ := by
  unfold nearestAt at h
  dsimp only at h
  split at h
  · split at h
    · split at h <;> cases h
    · cases h
  · split at h
    · cases h
    · next hnone => exact hnone

-- At a place whose steps are less than a unit the multiple right above a double reads back as it, so
-- that there is an answer.
theorem nearestAt_of_fine {place : Nat} (hb : 0 < b)
    (hfine : Nat.pow 10 place * Nat.pow 2 1075 < Nat.pow 10 324) :
    ∃ d, nearestAt b place = some d := by
  have hstep : 0 < Nat.pow 10 place * Nat.pow 2 1075 :=
    Nat.mul_pos (Nat.pow_pos (by omega)) (by decide +kernel)
  have hunits : units (b - 1) < units b := units_strictMono (by omega)
  have hunits' : units b < units (b + 1) := units_strictMono (by omega)
  have habove : ReadsBack b
      ⟨2 * units b * Nat.pow 10 324 / (Nat.pow 10 place * Nat.pow 2 1075) + 1, place⟩ := by
    obtain ⟨hlt, hle⟩ := lt_next_multiple (2 * units b * Nat.pow 10 324) hstep
    refine readsBack_of_lt ?_ ?_ <;> rw [Decimal.worth] <;> dsimp only
    · refine lt_trans ?_ hlt
      exact Nat.mul_lt_mul_of_pos_right (by omega) scale_pos
    · exact lt_middle_of_le hunits' hfine hle
  cases hd : nearestAt b place with
  | none => exact absurd habove (not_readsBack_of_nearestAt hd)
  | some d => exact ⟨d, rfl⟩

theorem readsBack_shortest (hb : 0 < b) : ReadsBack b (shortest b) := by
  have hfrom (place : Nat) : ReadsBack b (shortestFrom b place) := by
    induction place with
    | zero =>
      have hfine : Nat.pow 10 0 * Nat.pow 2 1075 < Nat.pow 10 324 := by decide +kernel
      obtain ⟨d, hd⟩ := nearestAt_of_fine hb hfine
      rw [shortestFrom, hd]
      exact readsBack_of_nearestAt hd
    | succ place ih =>
      rw [shortestFrom]
      cases hd : nearestAt b (place + 1) with
      | none => exact ih
      | some d => exact readsBack_of_nearestAt hd
  exact hfrom _

end

end Lox.Number
