import Lox.Proofs.Source.Spelled
import Lox.Text.LineBreak

namespace Lox

-- A literal whose text can be shown and understood: a number that is finite, or a string in which
-- nothing but line feeds ends lines.
def Literal.Presentable : Literal → Prop
  | .number value => Number.magnitude value < Number.infinity
  | .string text => ∀ c ∈ text.toList, Text.isLineBreak c = true → c = '\n'
  | _ => True

instance (value : Literal) : Decidable value.Presentable :=
  match value with
  | .number value => inferInstanceAs (Decidable (Number.magnitude value < Number.infinity))
  | .string text =>
    decidable_of_iff ((text.toList.all fun c => Text.isLineBreak c = true → c = '\n') = true)
      (by simp only [Literal.Presentable, List.all_eq_true, decide_eq_true_eq])
  | .nil | .bool _ | .primitive _ | .undefined _ => .isTrue trivial

-- What the text of a token of a program tells about it.
structure Token.Legible (t : Token) : Prop where
  spelled : t.Spelled
  word : t.kind = .identifier → Source.Word t.lexeme.toList
  free : t.kind = .identifier → ∀ pair ∈ reservedWords, pair.1 ≠ t.lexeme
  unquoted : ∀ text, t.literal = .string text → '"' ∉ text.toList
  presentable : t.literal.Presentable

namespace Source

theorem eq_of_literalOf {kind : TokenKind} {text : List Char} {value : String}
    (h : literalOf kind text = .string value) :
    kind = .string ∧ value = String.ofList (text.drop 1).dropLast := by
  unfold literalOf at h
  split at h
  · cases h
  · exact ⟨rfl, (Literal.string.inj h).symm⟩
  · cases h

theorem Lexeme.legible {kind : TokenKind} {text : List Char} (h : Lexeme (.token kind) text)
    (line : Int) (hp : (literalOf kind text).Presentable) :
    Token.Legible ⟨kind, String.ofList text, literalOf kind text, line⟩ where
  spelled := h.spelled line
  word hk := by
    subst hk
    rw [String.toList_ofList]
    exact h.named.1
  free hk pair hpair hlexeme := by
    subst hk
    refine h.named.2 pair hpair ?_
    rw [hlexeme, String.toList_ofList]
  unquoted value hvalue := by
    obtain ⟨rfl, rfl⟩ := eq_of_literalOf hvalue
    obtain ⟨body, hbody, rfl⟩ := h.body
    simpa using hbody
  presentable := hp

-- Every token of a text is legible if its literal can be shown.
theorem legible_of_mem_scan {source : String} {t : Token} (h : t ∈ (scan source).tokens)
    (hp : t.literal.Presentable) : t.Legible := by
  rw [scan, tokens_collect] at h
  obtain h | h := List.mem_append.1 h
  · obtain ⟨text, line, hlexeme, ht⟩ := lexeme_of_mem_words h
    rw [ht] at hp ⊢
    exact hlexeme.legible line hp
  · obtain rfl := List.mem_singleton.1 h
    exact ⟨⟨rfl, rfl⟩, by simp, by simp, by simp, trivial⟩

end Source

end Lox
