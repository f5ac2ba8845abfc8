import Lox.Source.Piece
import Mathlib.Data.List.TakeWhile

namespace Lox.Source

-- The operators and punctuation.
def operators : List (String × TokenKind) :=
  [("(", .leftParen), (")", .rightParen), ("\x7b", .leftBrace), ("\x7d", .rightBrace),
    (",", .comma), (".", .dot), ("-", .minus), ("+", .plus), (";", .semicolon), ("/", .slash),
    ("*", .star), ("!", .bang), ("!=", .bangEqual), ("=", .equal), ("==", .equalEqual),
    ("<", .less), ("<=", .lessEqual), (">", .greater), (">=", .greaterEqual)]

-- What a comment is made of.
inductive Mark where
  | opening
  | closing
  | other (c : Char)
deriving DecidableEq, Repr

-- The openings and ends of comments in a text. They are taken from left to right, and no
-- character belongs to two of them.
def marks : List Char → List Mark
  | [] => []
  | '/' :: '*' :: rest => .opening :: marks rest
  | '*' :: '/' :: rest => .closing :: marks rest
  | c :: rest => .other c :: marks rest

-- Every opening has an end of its own after it, and every end an opening before it.
inductive Nested : List Mark → Prop
  | nil : Nested []
  | other {c : Char} {ms : List Mark} : Nested ms → Nested (.other c :: ms)
  | comment {inner ms : List Mark} :
    Nested inner → Nested ms → Nested (.opening :: (inner ++ .closing :: ms))

def BlockComment (text : List Char) : Prop :=
  ∃ inner, Nested inner ∧ marks text = .opening :: (inner ++ [.closing])

def Digits (text : List Char) : Prop :=
  text ≠ [] ∧ ∀ d ∈ text, Number.isDigit d

def Word : List Char → Prop
  | [] => False
  | c :: rest => isWordStart c ∧ ∀ d ∈ rest, isWordPart d

-- The texts that can stand as one piece of a program.
inductive Lexeme : PieceKind → List Char → Prop
  | operator {spelling : String} {kind : TokenKind} :
    (spelling, kind) ∈ operators → Lexeme (.token kind) spelling.toList
  | whole {digits : List Char} : Digits digits → Lexeme (.token .number) digits
  | decimal {whole fraction : List Char} :
    Digits whole → Digits fraction → Lexeme (.token .number) (whole ++ '.' :: fraction)
  | reserved {word : String} {kind : TokenKind} :
    (word, kind) ∈ reservedWords → Lexeme (.token kind) word.toList
  | name {text : List Char} :
    Word text → (∀ pair ∈ reservedWords, pair.1.toList ≠ text) →
    Lexeme (.token .identifier) text
  | string {body : List Char} :
    '"' ∉ body → Lexeme (.token .string) ('"' :: (body ++ ['"']))
  | blank {c : Char} : c ∈ [' ', '\t', '\r', '\n'] → Lexeme .blank [c]
  | lineComment {body : List Char} : '\n' ∉ body → Lexeme .comment ('/' :: '/' :: body)
  | blockComment {text : List Char} : BlockComment text → Lexeme .comment text

-- The texts in which a comment or a string is begun that nothing ends.
inductive Unended : PieceKind → List Char → Prop
  | comment {source : List Char} :
    ['/', '*'] <+: source → (∀ text, text <+: source → ¬ BlockComment text) →
    Unended .openComment source
  | string {body : List Char} : '"' ∉ body → Unended .openString ('"' :: body)

theorem marks_eq_nil_iff {text : List Char} : marks text = [] ↔ text = [] := by
  constructor
  · intro h
    unfold marks at h
    split at h <;> simp_all
  · rintro rfl
    rfl

theorem marks_singleton (c : Char) : marks [c] = [.other c] := by
  unfold marks
  split <;> simp_all [marks]

-- Only an opening starts with the mark of one.
theorem eq_of_marks_opening {text : List Char} {ms : List Mark}
    (h : marks text = .opening :: ms) : ∃ rest, text = '/' :: '*' :: rest ∧ marks rest = ms := by
  unfold marks at h
  split at h
  · cases h
  · next rest => exact ⟨rest, rfl, (List.cons.inj h).2⟩
  · cases h
  · cases h

-- The marks that end so many openings before them, with nothing after the last end.
def Closes : (depth : Nat) → List Mark → Prop
  | 0, ms => ms = []
  | depth + 1, ms => ∃ inner after, Nested inner ∧ ms = inner ++ .closing :: after ∧
      Closes depth after

section

variable {depth : Nat} {ms : List Mark}

theorem not_closes_nil : ¬ Closes (depth + 1) [] := by
  rintro ⟨inner, after, -, h, -⟩
  simp at h

theorem closes_other {c : Char} : Closes (depth + 1) (.other c :: ms) ↔ Closes (depth + 1) ms := by
  constructor
  · rintro ⟨inner, after, hinner, hms, hafter⟩
    cases hinner with
    | nil => simp at hms
    | other hinner =>
      rw [List.cons_append] at hms
      exact ⟨_, after, hinner, (List.cons.inj hms).2, hafter⟩
    | comment => simp at hms
  · rintro ⟨inner, after, hinner, rfl, hafter⟩
    exact ⟨.other c :: inner, after, .other hinner, rfl, hafter⟩

theorem closes_closing : Closes (depth + 1) (.closing :: ms) ↔ Closes depth ms := by
  constructor
  · rintro ⟨inner, after, hinner, hms, hafter⟩
    cases hinner with
    | nil =>
      obtain ⟨-, rfl⟩ := List.cons.inj hms
      exact hafter
    | other => simp at hms
    | comment => simp at hms
  · exact fun h => ⟨[], ms, .nil, rfl, h⟩

theorem closes_opening : Closes (depth + 1) (.opening :: ms) ↔ Closes (depth + 2) ms := by
  constructor
  · rintro ⟨inner, after, hinner, hms, hafter⟩
    cases hinner with
    | nil => simp at hms
    | other => simp at hms
    | @comment inner rest hinner hrest =>
      obtain ⟨-, rfl⟩ := List.cons.inj hms
      exact ⟨inner, rest ++ .closing :: after, hinner, by simp, rest, after, hrest, rfl, hafter⟩
  · rintro ⟨inner, after, hinner, rfl, rest, after', hrest, rfl, hafter⟩
    exact ⟨_, after', .comment hinner hrest, by simp, hafter⟩

-- What ends a comment does not tear a mark of two characters apart, since one of them alone ends
-- nothing.
theorem closes_pair_iff {a b : Char} {mark : Mark} {inner : Nat} {source text rest : List Char}
    (hmarks : ∀ after, marks (a :: b :: after) = mark :: marks after)
    (hmark : ∀ ms, Closes (depth + 1) (mark :: ms) ↔ Closes inner ms) :
    a :: b :: source = text ++ rest ∧ Closes (depth + 1) (marks text) ↔
      ∃ after, (source = after ++ rest ∧ Closes inner (marks after)) ∧ a :: b :: after = text := by
  constructor
  · rintro ⟨h, hcloses⟩
    match text, h, hcloses with
    | [], _, hcloses => exact absurd hcloses not_closes_nil
    | [c], _, hcloses =>
      rw [marks_singleton, closes_other] at hcloses
      exact absurd hcloses not_closes_nil
    | c :: d :: after, h, hcloses =>
      simp only [List.cons_append, List.cons.injEq] at h
      obtain ⟨rfl, rfl, h⟩ := h
      rw [hmarks, hmark] at hcloses
      exact ⟨after, ⟨h, hcloses⟩, rfl⟩
  · rintro ⟨after, ⟨rfl, hcloses⟩, rfl⟩
    exact ⟨rfl, by rwa [hmarks, hmark]⟩

end

-- A comment is cut off where its marks end all that is open, and nowhere else.
theorem cutComment_eq_some_iff {depth : Nat} {source text rest : List Char} :
    cutComment depth source = some (text, rest) ↔
      source = text ++ rest ∧ Closes depth (marks text) := by
  fun_induction cutComment depth source generalizing text rest with
  | case1 source =>
    simp only [Option.some.injEq, Prod.mk.injEq, Closes, marks_eq_nil_iff]
    constructor
    · rintro ⟨rfl, rfl⟩
      exact ⟨rfl, rfl⟩
    · rintro ⟨h, rfl⟩
      exact ⟨rfl, h⟩
  | case2 depth =>
    simp only [reduceCtorEq, false_iff]
    rintro ⟨h, hcloses⟩
    obtain ⟨rfl, -⟩ := List.append_eq_nil_iff.1 h.symm
    exact not_closes_nil hcloses
  | case3 depth source ih =>
    rw [closes_pair_iff (fun after => by rw [marks]) fun ms => closes_opening]
    simp only [Option.map_eq_some_iff, Prod.exists, Prod.mk.injEq, ih, ← and_assoc,
      exists_eq_right]
  | case4 depth source ih =>
    rw [closes_pair_iff (fun after => by rw [marks]) fun ms => closes_closing]
    simp only [Option.map_eq_some_iff, Prod.exists, Prod.mk.injEq, ih, ← and_assoc,
      exists_eq_right]
  | case5 depth c source hopening hend ih =>
    -- no pair starts here in the whole text, so none does in the part of it that is cut off
    have hmarks (text rest : List Char) (h : source = text ++ rest) :
        marks (c :: text) = .other c :: marks text := by
      subst h
      rw [marks]
      · rintro after rfl rfl
        exact hopening _ rfl rfl
      · rintro after rfl rfl
        exact hend _ rfl rfl
    simp only [Option.map_eq_some_iff, Prod.exists, Prod.mk.injEq, ih]
    constructor
    · rintro ⟨text, rest, ⟨h, hcloses⟩, rfl, rfl⟩
      rw [hmarks text rest h, closes_other]
      exact ⟨by rw [h, List.cons_append], hcloses⟩
    · rintro ⟨h, hcloses⟩
      cases text with
      | nil => exact absurd hcloses not_closes_nil
      | cons d text =>
        obtain ⟨rfl, hsource⟩ := List.cons.inj h
        rw [hmarks text rest hsource, closes_other] at hcloses
        exact ⟨text, rest, ⟨hsource, hcloses⟩, rfl, rfl⟩

theorem blockComment_iff {text : List Char} :
    BlockComment text ↔ ∃ body, text = '/' :: '*' :: body ∧ Closes 1 (marks body) := by
  constructor
  · rintro ⟨inner, hinner, hmarks⟩
    obtain ⟨body, rfl, hbody⟩ := eq_of_marks_opening hmarks
    exact ⟨body, rfl, inner, [], hinner, hbody, rfl⟩
  · rintro ⟨body, rfl, inner, after, hinner, hbody, rfl⟩
    exact ⟨inner, hinner, by rw [marks, hbody]⟩

section

variable {kind : PieceKind} {text : List Char}

theorem Lexeme.ne_nil (h : Lexeme kind text) : text ≠ [] := by
  cases h with
  | operator hmem =>
    have hall : ∀ pair ∈ operators, pair.1.toList ≠ [] := by decide
    exact hall _ hmem
  | whole hdigits => exact hdigits.1
  | reserved hmem =>
    have hall : ∀ pair ∈ reservedWords, pair.1.toList ≠ [] := by decide
    exact hall _ hmem
  | name hword =>
    rintro rfl
    exact hword
  | blockComment hcomment =>
    obtain ⟨body, rfl, -⟩ := blockComment_iff.1 hcomment
    simp
  | decimal | string | blank | lineComment => simp

theorem Lexeme.ordinary (h : Lexeme kind text) :
    kind = .blank ∨ kind = .comment ∨ ∃ token, kind = .token token := by
  cases h <;> simp

-- No lexeme is the token that marks the end.
theorem Lexeme.ne_eof {token : TokenKind} (h : Lexeme (.token token) text) : token ≠ .eof := by
  cases h with
  | operator hmem =>
    have hall : ∀ pair ∈ operators, pair.2 ≠ .eof := by decide
    exact hall _ hmem
  | reserved hmem =>
    have hall : ∀ pair ∈ reservedWords, pair.2 ≠ .eof := by decide
    exact hall _ hmem
  | whole | decimal | name | string => simp

-- Strings alone give string tokens.
theorem Lexeme.body (h : Lexeme (.token .string) text) :
    ∃ body, '"' ∉ body ∧ text = '"' :: (body ++ ['"']) := by
  cases h with
  | operator hmem =>
    have hall : ∀ pair ∈ operators, pair.2 ≠ .string := by decide
    exact absurd rfl (hall _ hmem)
  | reserved hmem =>
    have hall : ∀ pair ∈ reservedWords, pair.2 ≠ .string := by decide
    exact absurd rfl (hall _ hmem)
  | @string body hbody => exact ⟨body, hbody, rfl⟩

-- Words that are not reserved alone give names.
theorem Lexeme.named (h : Lexeme (.token .identifier) text) :
    Word text ∧ ∀ pair ∈ reservedWords, pair.1.toList ≠ text := by
  cases h with
  | operator hmem =>
    have hall : ∀ pair ∈ operators, pair.2 ≠ .identifier := by decide
    exact absurd rfl (hall _ hmem)
  | reserved hmem =>
    have hall : ∀ pair ∈ reservedWords, pair.2 ≠ .identifier := by decide
    exact absurd rfl (hall _ hmem)
  | name hword hfree => exact ⟨hword, hfree⟩

end

end Lox.Source
