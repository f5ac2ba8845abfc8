import Lox.Proofs.Source.Lines
import Lox.Text.Blank

namespace Lox.Source

theorem bounds_of_wordPart {c : Char} (h : isWordPart c) : '0' ≤ c ∧ c ≤ 'z' := by
  simp only [isWordPart, isWordStart, Number.isDigit, Bool.or_eq_true, Bool.and_eq_true,
    decide_eq_true_eq] at h
  obtain ((⟨ha, hz⟩ | ⟨ha, hz⟩) | rfl) | ⟨h0, h9⟩ := h
  · exact ⟨Char.le_trans (by decide) ha, hz⟩
  · exact ⟨Char.le_trans (by decide) ha, Char.le_trans hz (by decide)⟩
  · decide
  · exact ⟨h0, Char.le_trans h9 (by decide)⟩

-- White space is below all digits and letters, or above them.
theorem not_isWordPart_of_blank {c : Char} (h : Text.isBlank c) : isWordPart c = false := by
  rw [Bool.eq_false_iff]
  intro hpart
  obtain ⟨hlow, hhigh⟩ := bounds_of_wordPart hpart
  simp only [Text.isBlank, Bool.or_eq_true, Bool.and_eq_true, decide_eq_true_eq,
    List.contains_iff_mem] at h
  obtain ((⟨-, hr⟩ | ⟨-, hs⟩) | ⟨hu, -⟩) | hmem := h
  · exact absurd (Char.le_trans hlow hr) (by decide)
  · exact absurd (Char.le_trans hlow hs) (by decide)
  · exact absurd (Char.le_trans hu hhigh) (by decide)
  · simp only [List.mem_cons, List.not_mem_nil, or_false] at hmem
    obtain rfl | rfl | rfl | rfl | rfl | rfl | rfl | rfl := hmem
    all_goals exact absurd hhigh (by decide)

-- No token starts with white space, in whatever sense.
theorem cut_of_blank {c : Char} (h : Text.isBlank c) (rest : List Char) :
    ∃ kind, (∀ token, kind ≠ .token token) ∧ cut c rest = (⟨kind, [c]⟩, rest) := by
  have hpunctuation : punctuation? c = none := by
    unfold punctuation?
    split
    all_goals first | rfl | exact absurd h (by decide)
  have hcomparison : comparison? c = none := by
    unfold comparison?
    split
    all_goals first | rfl | exact absurd h (by decide)
  have hpart := not_isWordPart_of_blank h
  have hslash : c ≠ '/' := by
    rintro rfl
    exact absurd h (by decide)
  have hquote : c ≠ '"' := by
    rintro rfl
    exact absurd h (by decide)
  rw [isWordPart, Bool.or_eq_false_iff] at hpart
  rw [cut, hpunctuation, hcomparison]
  by_cases hblank : isBlank c
  · exact ⟨.blank, by simp, by simp [hslash, hblank]⟩
  · exact ⟨.stray, by simp, by simp [hslash, hblank, hquote, hpart]⟩

theorem words_of_blank {text : List Char} (h : ∀ c ∈ text, Text.isBlank c) (line : Int) :
    words line (pieces text) = [] := by
  induction text generalizing line with
  | nil => rw [pieces, words]
  | cons c text ih =>
    obtain ⟨hc, htext⟩ := List.forall_mem_cons.1 h
    obtain ⟨kind, hkind, hcut⟩ := cut_of_blank hc text
    rw [pieces, hcut, words, ih htext, List.append_nil]
    cases kind with
    | token kind => exact absurd rfl (hkind kind)
    | _ => rfl

end Lox.Source
