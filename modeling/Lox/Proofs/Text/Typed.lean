import Lox.Text.LineBreak
import Mathlib.Data.List.Basic

namespace Lox.Text

-- A text that is typed in line by line. A line feed ends each of the lines, but the last one can
-- end with the text.
inductive Typed : List Char → List String → Prop
  | nothing : Typed [] []
  | last {line : String} (hfeed : '\n' ∉ line.toList) (hne : line ≠ "") : Typed line.toList [line]
  | line {line : String} {rest : List Char} {lines : List String} (hfeed : '\n' ∉ line.toList)
      (h : Typed rest lines) : Typed (line.toList ++ '\n' :: rest) (line :: lines)

theorem normalizeNewlines_eq_self {text : List Char} (h : '\r' ∉ text) :
    normalizeNewlines text = text := by
  fun_induction normalizeNewlines text with
  | case1 => rfl
  | case2 rest ih => simp at h
  | case3 rest hrest ih => simp at h
  | case4 c rest hpair hreturn ih => rw [ih fun hmem => h (List.mem_cons_of_mem c hmem)]

theorem firstLine_feed {line : List Char} (h : '\n' ∉ line) (rest : List Char) :
    firstLine (line ++ '\n' :: rest) = (line ++ ['\n'], rest) := by
  induction line with
  | nil => rfl
  | cons c line ih =>
    obtain ⟨hc, hline⟩ := List.ne_and_not_mem_of_not_mem_cons h
    rw [List.cons_append, firstLine, ih hline]
    · rfl
    · exact hc.symm

theorem firstLine_last {line : List Char} (h : '\n' ∉ line) : firstLine line = (line, []) := by
  induction line with
  | nil => rfl
  | cons c line ih =>
    obtain ⟨hc, hline⟩ := List.ne_and_not_mem_of_not_mem_cons h
    rw [firstLine, ih hline]
    exact hc.symm

theorem Typed.cons {c : Char} {text : List Char} {lines : List String} (hc : c ≠ '\n')
    (h : Typed text lines) : ∃ lines', Typed (c :: text) lines' := by
  have hfeed : ∀ {line : String}, '\n' ∉ line.toList →
      '\n' ∉ (String.ofList (c :: line.toList)).toList := fun h => by
    simpa [hc.symm] using h
  cases h with
  | nothing =>
    have hlast := @Typed.last (String.ofList [c]) (by simpa using hc.symm) (by simp)
    exact ⟨_, by simpa using hlast⟩
  | @last line hline hne =>
    have hlast := @Typed.last (String.ofList (c :: line.toList)) (hfeed hline) (by simp)
    exact ⟨_, by simpa using hlast⟩
  | @line line rest lines hline h =>
    have hfirst := Typed.line (hfeed hline) h
    exact ⟨_, by simpa using hfirst⟩

theorem exists_typed (text : List Char) : ∃ lines, Typed text lines := by
  induction text with
  | nil => exact ⟨[], .nothing⟩
  | cons c text ih =>
    obtain ⟨lines, h⟩ := ih
    by_cases hc : c = '\n'
    · subst hc
      have hempty : '\n' ∉ "".toList := by simp
      exact ⟨"" :: lines, .line hempty h⟩
    · exact h.cons hc

theorem Typed.length_le {text : List Char} {lines : List String} (h : Typed text lines) :
    lines.length ≤ text.length := by
  induction h with
  | nothing => exact Nat.le_refl 0
  | @last line _ hne =>
    have hpos : 0 < line.toList.length := List.length_pos_iff.2 (by simpa using hne)
    exact hpos
  | line _ _ ih =>
    simp only [List.length_append, List.length_cons]
    omega

-- A text is its lines, joined by line feeds. If it ends with a line feed, then one more line is
-- joined that is empty.
theorem Typed.exists_joined {text : List Char} {lines : List String} (h : Typed text lines) :
    ∃ sources, sources ≠ [] ∧ (sources = lines ∨ sources = lines ++ [""]) ∧
      String.ofList text = "\n".intercalate sources := by
  induction h with
  | nothing => exact ⟨[""], by simp, .inr rfl, rfl⟩
  | @last line => exact ⟨[line], by simp, .inl rfl, by simp⟩
  | @line line rest lines hfeed h ih =>
    obtain ⟨sources, hne, hsources, hrest⟩ := ih
    refine ⟨line :: sources, by simp, ?_, ?_⟩
    · obtain rfl | rfl := hsources
      · exact .inl rfl
      · exact .inr rfl
    · rw [String.intercalate_cons_of_ne_nil hne, ← hrest]
      simp [← String.toList_inj]

end Lox.Text
