import Lox.Diagnostic
import Lox.Proofs.Source.Lines
import Lox.Text.LineBreak

namespace Lox

namespace Text

-- A text in which no line ends.
def OneLine (text : String) : Prop :=
  ∀ c ∈ text.toList, isLineBreak c = false

instance (text : String) : Decidable (OneLine text) :=
  decidable_of_iff ((text.toList.all fun c => !isLineBreak c) = true) (by simp [OneLine])

theorem OneLine.append {a b : String} (ha : OneLine a) (hb : OneLine b) : OneLine (a ++ b) := by
  intro c hc
  rw [String.toList_append, List.mem_append] at hc
  exact hc.elim (ha c) (hb c)

-- No character of a class ends a line if no line end is in the class.
theorem isLineBreak_eq_false {p : Char → Bool} {c : Char} (hc : p c = true)
    (hp : ['\n', '\r', '\x0b', '\x0c', '\x1c', '\x1d', '\x1e', '\u0085', '\u2028', '\u2029'].any
      p = false) : isLineBreak c = false := by
  by_contra hbreak
  rw [Bool.not_eq_false, isLineBreak, List.contains_iff_mem] at hbreak
  exact List.any_eq_false.1 hp c hbreak hc

theorem oneLine_nat (n : Nat) : OneLine (toString n) := by
  intro c hc
  rw [Nat.toString_eq_repr, Nat.toList_repr] at hc
  exact isLineBreak_eq_false (Nat.isDigit_of_mem_toDigits (by omega) (by omega) hc) (by decide)

theorem oneLine_int (i : Int) : OneLine (toString i) := by
  cases i with
  | ofNat n => exact oneLine_nat n
  | negSucc n =>
    have hminus : OneLine "-" := by decide
    exact hminus.append (oneLine_nat (n + 1))

end Text

namespace Source

open Text

variable {kind : TokenKind} {text : List Char}

theorem oneLine_digits (h : Digits text) : ∀ c ∈ text, isLineBreak c = false :=
  fun c hc => isLineBreak_eq_false (h.2 c hc) (by decide)

theorem oneLine_word (h : Word text) : ∀ c ∈ text, isLineBreak c = false := by
  cases text with
  | nil => exact h.elim
  | cons first rest =>
    refine List.forall_mem_cons.2 ⟨isLineBreak_eq_false h.1 (by decide), fun c hc => ?_⟩
    exact isLineBreak_eq_false (h.2 c hc) (by decide)

-- A line can end in strings, but in no other token.
theorem Lexeme.oneLine (h : Lexeme (.token kind) text) (hk : kind ≠ .string) :
    ∀ c ∈ text, isLineBreak c = false := by
  cases h with
  | operator hmem =>
    have hall : ∀ pair ∈ operators, OneLine pair.1 := by decide
    exact hall _ hmem
  | whole hdigits => exact oneLine_digits hdigits
  | decimal hwhole hfraction =>
    refine List.forall_mem_append.2 ⟨oneLine_digits hwhole, List.forall_mem_cons.2 ⟨by decide, ?_⟩⟩
    exact oneLine_digits hfraction
  | reserved hmem =>
    have hall : ∀ pair ∈ reservedWords, OneLine pair.1 := by decide
    exact hall _ hmem
  | name hword => exact oneLine_word hword
  | string => exact absurd rfl hk

theorem oneLine_of_mem_scan {source : String} {t : Token} (h : t ∈ (scan source).tokens)
    (hk : t.kind ≠ .string) : OneLine t.lexeme := by
  rw [scan, tokens_collect] at h
  obtain h | h := List.mem_append.1 h
  · obtain ⟨text, line, hlexeme, ht⟩ := lexeme_of_mem_words h
    rw [ht]
    intro c hc
    rw [String.toList_ofList] at hc
    exact hlexeme.oneLine hk c hc
  · obtain rfl := List.mem_singleton.1 h
    have hempty : OneLine "" := by decide
    exact hempty

end Source

-- A report ends its own line, and that is the only one if its message and its token are on one.
theorem Diagnostic.report_oneLine {d : Diagnostic} (hmessage : Text.OneLine d.message)
    (htoken : ∀ t, d.token = some t → Text.OneLine t.lexeme) :
    ∃ line, d.report = line ++ "\n" ∧ Text.OneLine line := by
  have hlocation : Text.OneLine d.location := by
    unfold location
    cases hd : d.token with
    | none => decide
    | some t =>
      dsimp only
      split
      · decide
      · have hat : Text.OneLine " at '" := by decide
        have hquote : Text.OneLine "'" := by decide
        exact (hat.append (htoken t hd)).append hquote
  have hlabel : Text.OneLine (if d.stage = .running then "RuntimeError" else "Error") := by
    split <;> decide
  have hopen : Text.OneLine "[Line " := by decide
  have hclose : Text.OneLine "] " := by decide
  have hcolon : Text.OneLine ": " := by decide
  have hline := (hopen.append (Text.oneLine_int d.line)).append hclose
  exact ⟨_, rfl, (((hline.append hlabel).append hlocation).append hcolon).append hmessage⟩

end Lox
