import Lox.Proofs.Number.Plain

namespace Lox.Number

-- The digits of a finite double, without its sign.
def digitsOf (b : Nat) : List Char :=
  if b = 0 then ['0'] else (shortest b).plain

theorem display_of_finite {x : Float} (hx : magnitude x < infinity) :
    (display x).toList =
      if isNegative x then '-' :: digitsOf (magnitude x) else digitsOf (magnitude x) := by
  have hnumber : ¬ infinity < magnitude x := by omega
  have hfinite : magnitude x ≠ infinity := by omega
  unfold display
  dsimp only
  rw [if_neg hnumber, if_neg hfinite, String.toList_ofList, digitsOf]

-- Plain notation starts with a digit.
theorem plain_head (d : Decimal) : ∃ c text, d.plain = c :: text ∧ isDigit c = true := by
  have hnumeral (n : Nat) (more : List Char) :
      ∃ c text, numeral n ++ more = c :: text ∧ isDigit c = true := by
    obtain ⟨c, rest, hc⟩ := List.exists_cons_of_ne_nil (numeral_ne_nil n)
    exact ⟨c, rest ++ more, by rw [hc]; rfl, isDigit_of_mem_numeral (hc ▸ List.mem_cons_self)⟩
  unfold Decimal.plain
  split
  · rw [← List.append_nil (numeral _)]
    exact hnumeral _ []
  · exact hnumeral _ _

theorem digitsOf_head (b : Nat) : ∃ c text, digitsOf b = c :: text ∧ isDigit c = true := by
  unfold digitsOf
  split
  · exact ⟨'0', [], rfl, by decide⟩
  · exact plain_head _

theorem mem_plain {d : Decimal} {c : Char} (h : c ∈ d.plain) : isDigit c = true ∨ c = '.' := by
  unfold Decimal.plain at h
  split at h
  · exact .inl (isDigit_of_mem_numeral h)
  · obtain h | h := List.mem_append.1 h
    · exact .inl (isDigit_of_mem_numeral h)
    · obtain rfl | h := List.mem_cons.1 h
      · exact .inr rfl
      · exact .inl (isDigit_of_mem_padded h)

theorem mem_digitsOf {b : Nat} {c : Char} (h : c ∈ digitsOf b) : isDigit c = true ∨ c = '.' := by
  unfold digitsOf at h
  split at h
  · obtain rfl := List.mem_singleton.1 h
    exact .inl (by decide)
  · exact mem_plain h

theorem digitsOf_ne_zero {b : Nat} (hb : b ≠ 0) : digitsOf b ≠ digitsOf 0 := by
  intro h
  have hworth := congrArg (worthOf 324) h
  rw [digitsOf, digitsOf, if_pos rfl, if_neg hb, worthOf_plain, worthOf_zero] at hworth
  have hpos : 0 < b := by omega
  exact ((readsBack_shortest hpos).worth_pos hpos).ne' hworth

-- The digits tell what they are worth, and only one double reads back from that.
theorem digitsOf_injective : Function.Injective digitsOf := by
  intro b b' h
  by_cases hb : b = 0
  · subst hb
    by_contra hne
    exact digitsOf_ne_zero (Ne.symm hne) h.symm
  by_cases hb' : b' = 0
  · subst hb'
    exact absurd h (digitsOf_ne_zero hb)
  have hworth := congrArg (worthOf 324) h
  rw [digitsOf, digitsOf, if_neg hb, if_neg hb', worthOf_plain, worthOf_plain] at hworth
  exact (readsBack_shortest (by omega)).unique (readsBack_shortest (by omega)) hworth

theorem eq_of_toBits_eq {x y : Float} (h : x.toBits = y.toBits) : x = y := by
  obtain ⟨⟨b, hb⟩⟩ := x
  obtain ⟨⟨b', hb'⟩⟩ := y
  have hbits : b = b' := h
  subst hbits
  rfl

-- The sign and the pattern without it are the whole double.
theorem eq_of_magnitude_eq {x y : Float} (hm : magnitude x = magnitude y)
    (hs : isNegative x = isNegative y) : x = y := by
  have hx : x.toBits.toNat < 18446744073709551616 := x.toBits.toNat_lt
  have hy : y.toBits.toNat < 18446744073709551616 := y.toBits.toNat_lt
  have hhalf : Nat.pow 2 63 = 9223372036854775808 := rfl
  rw [magnitude, magnitude, hhalf] at hm
  rw [isNegative, isNegative, hhalf, decide_eq_decide] at hs
  refine eq_of_toBits_eq (UInt64.toNat_inj.1 ?_)
  omega

-- Digits with a minus in front are no digits.
theorem minus_ne_digitsOf (b b' : Nat) : '-' :: digitsOf b ≠ digitsOf b' := by
  intro h
  obtain ⟨c, text, hc, hdigit⟩ := digitsOf_head b'
  rw [hc] at h
  rw [← (List.cons.inj h).1] at hdigit
  exact absurd hdigit (by decide)

-- Finite doubles that are shown alike are the same.
theorem display_injective {x y : Float} (hx : magnitude x < infinity) (hy : magnitude y < infinity)
    (h : display x = display y) : x = y := by
  have htext := congrArg String.toList h
  rw [display_of_finite hx, display_of_finite hy] at htext
  cases hsx : isNegative x <;> cases hsy : isNegative y <;> rw [hsx, hsy] at htext
  · exact eq_of_magnitude_eq (digitsOf_injective htext) (hsx.trans hsy.symm)
  · exact absurd htext.symm (minus_ne_digitsOf _ _)
  · exact absurd htext (minus_ne_digitsOf _ _)
  · exact eq_of_magnitude_eq (digitsOf_injective (List.cons.inj htext).2) (hsx.trans hsy.symm)

end Lox.Number
