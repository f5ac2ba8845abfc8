import Lox.Proofs.Source.Lines
import Lox.Proofs.Syntax.Written

namespace Lox

-- A token whose text and literal are what its kind asks for: the text between the quotes of a
-- string is its literal, and only names and numbers are free in their texts.
def Token.Spelled (t : Token) : Prop :=
  match t.kind with
  | .number => ∃ value, t.literal = .number value
  | .string => ∃ text, t.literal = .string text ∧ t.lexeme = "\"" ++ text ++ "\""
  | .identifier => t.literal = .nil
  | kind => t.literal = .nil ∧ t.lexeme = kind.spelling

-- The kinds that leave the text or the literal open.
def TokenKind.Open (kind : TokenKind) : Prop :=
  kind ∈ [.number, .string, .identifier]

instance (kind : TokenKind) : Decidable kind.Open :=
  inferInstanceAs (Decidable (kind ∈ _))

theorem Token.spelled_iff {t : Token} (hopen : ¬ t.kind.Open) :
    t.Spelled ↔ t.literal = .nil ∧ t.lexeme = t.kind.spelling := by
  rw [TokenKind.Open] at hopen
  rw [Token.Spelled]
  split
  case h_1 hk | h_2 hk | h_3 hk => simp [hk] at hopen
  case h_4 => exact Iff.rfl

namespace Source

theorem spelled_of_spelling {kind : TokenKind} {text : List Char} (line : Int)
    (hopen : ¬ kind.Open) (h : String.ofList text = kind.spelling) :
    Token.Spelled ⟨kind, String.ofList text, literalOf kind text, line⟩ := by
  refine (Token.spelled_iff hopen).2 ⟨?_, h⟩
  rw [TokenKind.Open] at hopen
  unfold literalOf
  split
  · simp at hopen
  · simp at hopen
  · rfl

-- Every lexeme is spelled as its kind asks.
theorem Lexeme.spelled {kind : TokenKind} {text : List Char} (h : Lexeme (.token kind) text)
    (line : Int) : Token.Spelled ⟨kind, String.ofList text, literalOf kind text, line⟩ := by
  cases h with
  | operator hmem =>
    have hall : ∀ pair ∈ operators, ¬ pair.2.Open ∧ pair.1 = pair.2.spelling := by decide
    obtain ⟨hopen, hspelling⟩ := hall _ hmem
    exact spelled_of_spelling line hopen (String.ofList_toList.trans hspelling)
  | reserved hmem =>
    have hall : ∀ pair ∈ reservedWords, ¬ pair.2.Open ∧ pair.1 = pair.2.spelling := by decide
    obtain ⟨hopen, hspelling⟩ := hall _ hmem
    exact spelled_of_spelling line hopen (String.ofList_toList.trans hspelling)
  | whole | decimal => exact ⟨_, rfl⟩
  | name => exact rfl
  | string =>
    refine ⟨_, rfl, ?_⟩
    simp [← String.toList_inj]

theorem spelled_of_mem_collect {line : Int} {source : List Char} {t : Token}
    (h : t ∈ (collect line (pieces source)).tokens) : t.Spelled := by
  rw [tokens_collect] at h
  obtain h | h := List.mem_append.1 h
  · obtain ⟨text, line', hlexeme, ht⟩ := lexeme_of_mem_words h
    rw [ht]
    exact hlexeme.spelled line'
  · obtain rfl := List.mem_singleton.1 h
    exact ⟨rfl, rfl⟩

end Source

end Lox
