import Lox.Proofs.Number.Plain
import Lox.Proofs.Number.Rounding

namespace Lox.Number

-- What a decimal is worth.
def Decimal.value (d : Decimal) : ℚ :=
  d.coefficient * 10 ^ ((d.place : ℤ) - 324)

-- A step of a place, and what a double is worth, both in the same units.
def stepOf (place : Nat) : Nat :=
  Nat.pow 10 place * Nat.pow 2 1075

def valueOf (b : Nat) : Nat :=
  2 * units b * Nat.pow 10 324

-- The exponents are named, so that nothing works the powers out.
theorem exists_scale : ∃ scale : ℚ, 0 < scale ∧ (∀ b, exact b = valueOf b / scale) ∧
    ∀ c place, Decimal.value ⟨c, place⟩ = (c * stepOf place : Nat) / scale := by
  obtain ⟨k, hk⟩ : ∃ k, k = 1074 := ⟨_, rfl⟩
  obtain ⟨places, hplaces⟩ : ∃ places, places = 324 := ⟨_, rfl⟩
  have hhalves : 1075 = k + 1 := by omega
  have hcast : (324 : ℤ) = places := by omega
  refine ⟨2 ^ (k + 1) * 10 ^ places, by positivity, fun b => ?_, fun c place => ?_⟩
  · rw [exact, valueOf, ← hk, ← hplaces, Nat.pow_eq]
    push_cast
    field_simp
    ring
  · rw [Decimal.value, stepOf, hhalves, hcast, zpow_sub₀ (by norm_num), zpow_natCast, zpow_natCast,
      Nat.pow_eq, Nat.pow_eq]
    push_cast
    field_simp

-- A double and a decimal compared as whole numbers: the middle of two doubles with a decimal, and a
-- double with the middle of two decimals.
theorem middle_lt_value_iff (a b : Nat) (d : Decimal) : exact a + exact b < 2 * d.value ↔
    valueOf a + valueOf b < 2 * (d.coefficient * stepOf d.place) := by
  obtain ⟨scale, hscale, hexact, hvalue⟩ := exists_scale
  rw [hexact, hexact, hvalue d.coefficient d.place, ← add_div, ← mul_div_assoc,
    div_lt_div_iff_of_pos_right hscale]
  exact_mod_cast Iff.rfl

theorem value_lt_middle_iff (a b : Nat) (d : Decimal) : 2 * d.value < exact a + exact b ↔
    2 * (d.coefficient * stepOf d.place) < valueOf a + valueOf b := by
  obtain ⟨scale, hscale, hexact, hvalue⟩ := exists_scale
  rw [hexact, hexact, hvalue d.coefficient d.place, ← add_div, ← mul_div_assoc,
    div_lt_div_iff_of_pos_right hscale]
  exact_mod_cast Iff.rfl

theorem middle_eq_value_iff (a b : Nat) (d : Decimal) : exact a + exact b = 2 * d.value ↔
    valueOf a + valueOf b = 2 * (d.coefficient * stepOf d.place) := by
  rw [le_antisymm_iff, ← not_lt, ← not_lt, value_lt_middle_iff, middle_lt_value_iff]
  omega

theorem twice_lt_iff (b place c c' : Nat) :
    2 * exact b < Decimal.value ⟨c, place⟩ + Decimal.value ⟨c', place⟩ ↔
      2 * valueOf b < (c + c') * stepOf place := by
  obtain ⟨scale, hscale, hexact, hvalue⟩ := exists_scale
  rw [hexact, hvalue, hvalue, ← add_div, ← mul_div_assoc, div_lt_div_iff_of_pos_right hscale,
    Nat.add_mul]
  exact_mod_cast Iff.rfl

theorem lt_twice_iff (b place c c' : Nat) :
    Decimal.value ⟨c, place⟩ + Decimal.value ⟨c', place⟩ < 2 * exact b ↔
      (c + c') * stepOf place < 2 * valueOf b := by
  obtain ⟨scale, hscale, hexact, hvalue⟩ := exists_scale
  rw [hexact, hvalue, hvalue, ← add_div, ← mul_div_assoc, div_lt_div_iff_of_pos_right hscale,
    Nat.add_mul]
  exact_mod_cast Iff.rfl

theorem readsBack_scaled (b : Nat) (d : Decimal) : ReadsBack b d ↔
    if b % 2 = 0 then
      valueOf (b - 1) + valueOf b ≤ 2 * (d.coefficient * stepOf d.place) ∧
        2 * (d.coefficient * stepOf d.place) ≤ valueOf b + valueOf (b + 1)
    else
      valueOf (b - 1) + valueOf b < 2 * (d.coefficient * stepOf d.place) ∧
        2 * (d.coefficient * stepOf d.place) < valueOf b + valueOf (b + 1) := by
  unfold ReadsBack valueOf stepOf
  generalize Nat.pow 10 324 = scale
  generalize Nat.pow 2 1075 = halves
  dsimp only
  have hsum (u u' : Nat) : 2 * u * scale + 2 * u' * scale = 2 * ((u + u') * scale) := by ring
  rw [Nat.mul_assoc d.coefficient, hsum, hsum]
  split <;> omega

section

variable {b : Nat} {v : ℚ}

-- Only the neighbours of a double matter for what rounds to it.
theorem roundsTo_iff_neighbours (hb : 0 < b) (hfinite : b < infinity) :
    RoundsTo v b ↔
      (exact (b - 1) + exact b < 2 * v ∨ exact (b - 1) + exact b = 2 * v ∧ b % 2 = 0) ∧
      (2 * v < exact b + exact (b + 1) ∨ 2 * v = exact b + exact (b + 1) ∧ b % 2 = 0) := by
  rw [roundsTo_iff]
  constructor
  · intro h
    exact ⟨h.below (b - 1) (by omega), h.above (b + 1) (by omega) (by omega)⟩
  · rintro ⟨hbelow, habove⟩
    refine ⟨hfinite.le, fun other hother => ?_, fun other _ hother => ?_⟩
    · obtain hlt | heq := Nat.lt_or_eq_of_le (Nat.le_sub_one_of_lt hother)
      · have hless := exact_strictMono hlt
        left
        obtain h | ⟨h, -⟩ := hbelow <;> linarith
      · rw [heq]
        exact hbelow
    · obtain hlt | heq := Nat.lt_or_eq_of_le (Nat.succ_le_of_lt hother)
      · have hmore := exact_strictMono hlt
        left
        obtain h | ⟨h, -⟩ := habove <;> linarith
      · rw [← heq]
        exact habove

theorem readsBack_iff {d : Decimal} (hb : 0 < b) (hfinite : b < infinity) :
    ReadsBack b d ↔ RoundsTo d.value b := by
  rw [roundsTo_iff_neighbours hb hfinite, middle_lt_value_iff, middle_eq_value_iff,
    value_lt_middle_iff, eq_comm (a := 2 * d.value), middle_eq_value_iff, readsBack_scaled]
  split <;> omega

theorem roundsTo_exact (hfinite : b ≤ infinity) : RoundsTo (exact b) b := by
  refine ⟨hfinite, fun other _ hne => .inl ?_⟩
  rw [sub_self, abs_zero, abs_pos, sub_ne_zero]
  exact fun h => hne (exact_strictMono.injective h.symm)

end

-- Of two decimals the first is not farther from a value; at the same distance it is even.
def Decimal.Nearer (w : ℚ) (d d' : Decimal) : Prop :=
  |d.value - w| < |d'.value - w| ∨
    |d.value - w| = |d'.value - w| ∧ (d.value = d'.value ∨ d.coefficient % 2 = 0)

-- The multiples of a place on both sides of a double.
def below (b place : Nat) : Decimal :=
  ⟨valueOf b / stepOf place, place⟩

def above (b place : Nat) : Decimal :=
  ⟨valueOf b / stepOf place + 1, place⟩

theorem nearestAt_eq (b place : Nat) : nearestAt b place =
    if ReadsBack b (below b place) then
      if ReadsBack b (above b place) then
        if 2 * (valueOf b % stepOf place) < stepOf place ∨
            2 * (valueOf b % stepOf place) = stepOf place ∧ (below b place).coefficient % 2 = 0 then
          some (below b place)
        else some (above b place)
      else some (below b place)
    else if ReadsBack b (above b place) then some (above b place)
    else none := rfl

section

variable {b place : Nat}

theorem value_strictMono (place : Nat) : StrictMono fun c => Decimal.value ⟨c, place⟩ := by
  intro c c' h
  have hpos : (0 : ℚ) < 10 ^ ((place : ℤ) - 324) := zpow_pos (by norm_num) _
  exact mul_lt_mul_of_pos_right (Nat.cast_lt.2 h) hpos

theorem stepOf_pos (place : Nat) : 0 < stepOf place :=
  Nat.mul_pos (Nat.pow_pos (by omega)) (by decide +kernel)

theorem below_le (b place : Nat) : (below b place).value ≤ exact b := by
  have hdiv := Nat.div_mul_le_self (valueOf b) (stepOf place)
  have hnot : ¬ 2 * exact b < (below b place).value + (below b place).value := by
    rw [below, twice_lt_iff, Nat.add_mul]
    omega
  linarith

theorem lt_above (b place : Nat) : exact b < (above b place).value := by
  have hdiv := Nat.lt_mul_div_succ (valueOf b) (stepOf_pos place)
  rw [Nat.mul_comm] at hdiv
  have hless : 2 * exact b < (above b place).value + (above b place).value := by
    rw [above, twice_lt_iff, Nat.add_mul]
    omega
  linarith

-- What reads back at a place has a neighbour of the double on its way to it, which then reads back
-- too.
theorem readsBack_neighbour (hb : 0 < b) (hfinite : b < infinity) {c : Nat}
    (h : ReadsBack b ⟨c, place⟩) :
    c ≤ (below b place).coefficient ∧ ReadsBack b (below b place) ∨
      (above b place).coefficient ≤ c ∧ ReadsBack b (above b place) := by
  have hexact := roundsTo_exact hfinite.le
  rw [readsBack_iff hb hfinite] at h ⊢
  rw [readsBack_iff hb hfinite]
  obtain hle | hlt := le_or_gt c (below b place).coefficient
  · exact .inl ⟨hle, h.convex hexact ((value_strictMono place).monotone hle) (below_le b place)⟩
  · exact .inr ⟨hlt, hexact.convex h (lt_above b place).le ((value_strictMono place).monotone hlt)⟩

-- Without an answer at a place none of its multiples reads back.
theorem none_of_nearestAt (hb : 0 < b) (hfinite : b < infinity) (h : nearestAt b place = none)
    (c : Nat) : ¬ ReadsBack b ⟨c, place⟩ := by
  intro hc
  rw [nearestAt_eq] at h
  obtain ⟨-, hbelow⟩ | ⟨-, habove⟩ := readsBack_neighbour hb hfinite hc
  · rw [if_pos hbelow] at h
    split at h
    · split at h <;> cases h
    · cases h
  · rw [if_pos habove] at h
    split at h
    · split at h <;> cases h
    · cases h

theorem below_nearer {c : Nat} (h : c < (below b place).coefficient) :
    |(below b place).value - exact b| < |Decimal.value ⟨c, place⟩ - exact b| := by
  have hless : Decimal.value ⟨c, place⟩ < (below b place).value := value_strictMono place h
  have hle := below_le b place
  rw [abs_sub_comm, abs_sub_comm (Decimal.value _), nearer_greater_iff hless]
  linarith

theorem above_nearer {c : Nat} (h : (above b place).coefficient < c) :
    |(above b place).value - exact b| < |Decimal.value ⟨c, place⟩ - exact b| := by
  have hless : (above b place).value < Decimal.value ⟨c, place⟩ := value_strictMono place h
  have hlt := lt_above b place
  rw [abs_sub_comm, abs_sub_comm (Decimal.value _), nearer_lesser_iff hless]
  linarith

theorem Decimal.Nearer.trans_lt {d d' d'' : Decimal} {w : ℚ} (h : d.Nearer w d')
    (h' : |d'.value - w| < |d''.value - w|) : d.Nearer w d'' := by
  obtain h | ⟨h, -⟩ := h
  · exact .inl (h.trans h')
  · exact .inl (h ▸ h')

theorem Decimal.Nearer.refl (d : Decimal) (w : ℚ) : d.Nearer w d :=
  .inr ⟨rfl, .inl rfl⟩

-- What is not farther from a double than its neighbours is the nearest of all.
theorem nearer_of_neighbours {d : Decimal} (hb : 0 < b) (hfinite : b < infinity)
    (hbelow : ReadsBack b (below b place) → d.Nearer (exact b) (below b place))
    (habove : ReadsBack b (above b place) → d.Nearer (exact b) (above b place)) {c : Nat}
    (h : ReadsBack b ⟨c, place⟩) : d.Nearer (exact b) ⟨c, place⟩ := by
  obtain ⟨hle, hreads⟩ | ⟨hle, hreads⟩ := readsBack_neighbour hb hfinite h
  · obtain hlt | rfl := hle.lt_or_eq
    · exact (hbelow hreads).trans_lt (below_nearer hlt)
    · exact hbelow hreads
  · obtain hlt | rfl := hle.lt_or_eq
    · exact (habove hreads).trans_lt (above_nearer hlt)
    · exact habove hreads

-- The rest of the division tells which neighbour is nearer.
theorem rest_lt_iff (b place : Nat) : 2 * (valueOf b % stepOf place) < stepOf place ↔
    |(below b place).value - exact b| < |(above b place).value - exact b| := by
  have hless : (below b place).value < (above b place).value :=
    value_strictMono place (Nat.lt_succ_self _)
  have hdiv := Nat.div_add_mod' (valueOf b) (stepOf place)
  rw [abs_sub_comm, abs_sub_comm (above b place).value, nearer_lesser_iff hless, below, above,
    twice_lt_iff, Nat.add_mul, Nat.add_mul]
  omega

theorem lt_rest_iff (b place : Nat) : stepOf place < 2 * (valueOf b % stepOf place) ↔
    |(above b place).value - exact b| < |(below b place).value - exact b| := by
  have hless : (below b place).value < (above b place).value :=
    value_strictMono place (Nat.lt_succ_self _)
  have hdiv := Nat.div_add_mod' (valueOf b) (stepOf place)
  rw [abs_sub_comm, abs_sub_comm (below b place).value, nearer_greater_iff hless, below, above,
    lt_twice_iff, Nat.add_mul, Nat.add_mul]
  omega

theorem as_near_of_rest (h : 2 * (valueOf b % stepOf place) = stepOf place) :
    |(below b place).value - exact b| = |(above b place).value - exact b| := by
  refine le_antisymm (not_lt.1 ?_) (not_lt.1 ?_)
  · rw [← lt_rest_iff]
    omega
  · rw [← rest_lt_iff]
    omega

theorem below_nearer_above (h : 2 * (valueOf b % stepOf place) < stepOf place ∨
    2 * (valueOf b % stepOf place) = stepOf place ∧ (below b place).coefficient % 2 = 0) :
    (below b place).Nearer (exact b) (above b place) := by
  obtain hlt | ⟨heq, heven⟩ := h
  · exact .inl ((rest_lt_iff b place).1 hlt)
  · exact .inr ⟨as_near_of_rest heq, .inr heven⟩

-- Of two neighbours one is even.
theorem above_nearer_below (h : ¬ (2 * (valueOf b % stepOf place) < stepOf place ∨
    2 * (valueOf b % stepOf place) = stepOf place ∧ (below b place).coefficient % 2 = 0)) :
    (above b place).Nearer (exact b) (below b place) := by
  rw [not_or, not_and] at h
  obtain hlt | heq := (not_lt.1 h.1).lt_or_eq
  · exact .inl ((lt_rest_iff b place).1 hlt)
  · have hodd : ¬ valueOf b / stepOf place % 2 = 0 := h.2 heq.symm
    have heven : (valueOf b / stepOf place + 1) % 2 = 0 := by omega
    exact .inr ⟨(as_near_of_rest heq.symm).symm, .inr heven⟩

theorem nearer_of_nearestAt {d : Decimal} (hb : 0 < b) (hfinite : b < infinity)
    (h : nearestAt b place = some d) :
    d.place = place ∧ ∀ c, ReadsBack b ⟨c, place⟩ → d.Nearer (exact b) ⟨c, place⟩ := by
  suffices hnear : d.place = place ∧
      (ReadsBack b (below b place) → d.Nearer (exact b) (below b place)) ∧
      (ReadsBack b (above b place) → d.Nearer (exact b) (above b place)) from
    ⟨hnear.1, fun _ => nearer_of_neighbours hb hfinite hnear.2.1 hnear.2.2⟩
  rw [nearestAt_eq] at h
  split at h
  · next hbelow =>
    split at h
    · next habove =>
      split at h
      · next hrest =>
        obtain rfl := Option.some.inj h
        exact ⟨rfl, fun _ => .refl _ _, fun _ => below_nearer_above hrest⟩
      · next hrest =>
        obtain rfl := Option.some.inj h
        exact ⟨rfl, fun _ => above_nearer_below hrest, fun _ => .refl _ _⟩
    · next habove =>
      obtain rfl := Option.some.inj h
      exact ⟨rfl, fun _ => .refl _ _, fun h => absurd h habove⟩
  · next hbelow =>
    split at h
    · obtain rfl := Option.some.inj h
      exact ⟨rfl, fun h => absurd h hbelow, fun _ => .refl _ _⟩
    · cases h

end

-- The answer of the search: it reads back, no multiple of a coarser place does, and none of its own
-- place is nearer.
structure Answers (b : Nat) (d : Decimal) : Prop where
  readsBack : ReadsBack b d
  coarsest : ∀ c, ¬ ReadsBack b ⟨c, d.place + 1⟩
  nearest : ∀ c, ReadsBack b ⟨c, d.place⟩ → d.Nearer (exact b) ⟨c, d.place⟩

theorem answers_shortestFrom {b place : Nat} (hb : 0 < b) (hfinite : b < infinity)
    (hcoarse : ∀ c, ¬ ReadsBack b ⟨c, place + 1⟩) : Answers b (shortestFrom b place) := by
  induction place with
  | zero =>
    have hfine : Nat.pow 10 0 * Nat.pow 2 1075 < Nat.pow 10 324 := by decide +kernel
    obtain ⟨d, hd⟩ := nearestAt_of_fine hb hfine
    obtain ⟨hplace, hnearest⟩ := nearer_of_nearestAt hb hfinite hd
    rw [shortestFrom, hd, Option.getD_some]
    rw [← hplace] at hcoarse hnearest
    exact ⟨readsBack_of_nearestAt hd, hcoarse, hnearest⟩
  | succ place ih =>
    rw [shortestFrom]
    cases hd : nearestAt b (place + 1) with
    | none => exact ih (none_of_nearestAt hb hfinite hd)
    | some d =>
      obtain ⟨hplace, hnearest⟩ := nearer_of_nearestAt hb hfinite hd
      rw [← hplace] at hcoarse hnearest
      exact ⟨readsBack_of_nearestAt hd, hcoarse, hnearest⟩

theorem halves_pos : 0 < Nat.pow 2 1075 := by
  decide +kernel

-- The search starts beyond all that reads back.
theorem not_readsBack_start {b : Nat} (hb : 0 < b) (c : Nat) : ¬ ReadsBack b
    ⟨c, 324 + digitCount ((units b + units (b + 1)) / Nat.pow 2 1075) + 1⟩ := by
  intro h
  have hworth := h.worth_pos hb
  have hhigh := h.le_high
  have hpos := halves_pos
  rw [Decimal.worth] at hworth hhigh
  dsimp only at hworth hhigh
  -- the exponents are named, since nothing here depends on what they are
  generalize Nat.pow 2 1075 = halves at *
  generalize 324 = places at *
  have hdigits := lt_pow_digitCount ((units b + units (b + 1)) / halves)
  generalize digitCount ((units b + units (b + 1)) / halves) = n at *
  generalize units b + units (b + 1) = high at *
  rw [Nat.div_lt_iff_lt_mul hpos] at hdigits
  have hscale : 0 < Nat.pow 10 places := Nat.pow_pos (by omega)
  have hcoefficient : 1 ≤ c := Nat.pos_of_mul_pos_right hworth
  refine absurd hhigh (not_le.2 ?_)
  calc high * Nat.pow 10 places
      < Nat.pow 10 n * halves * Nat.pow 10 places := Nat.mul_lt_mul_of_pos_right hdigits hscale
    _ = Nat.pow 10 (places + n) * halves := by
      rw [Nat.pow_eq, Nat.pow_eq, Nat.pow_eq, Nat.pow_add]
      ring
    _ ≤ Nat.pow 10 (places + n + 1) * halves :=
      Nat.mul_le_mul_right halves (Nat.pow_le_pow_right (by omega) (by omega))
    _ ≤ c * Nat.pow 10 (places + n + 1) * halves :=
      Nat.mul_le_mul_right halves (Nat.le_mul_of_pos_left _ hcoefficient)

theorem answers_shortest {b : Nat} (hb : 0 < b) (hfinite : b < infinity) : Answers b (shortest b) :=
  answers_shortestFrom hb hfinite (not_readsBack_start hb)

end Lox.Number
