import Lox.Proofs.Source.Lines
import Mathlib.Data.List.Forall2

namespace Lox.Source

-- The piece at the start of a text: all of it where a comment or a string is begun that nothing
-- ends, otherwise the longest lexeme, and a single character where there is none.
inductive Starts : List Char → Piece → Prop
  | unended {kind : PieceKind} {source : List Char} :
    Unended kind source → Starts source ⟨kind, source⟩
  | longest {p : Piece} {source : List Char} :
    (∀ kind, ¬ Unended kind source) → Lexeme p.kind p.text → p.text <+: source →
    (∀ kind text, Lexeme kind text → text <+: source → text.length ≤ p.text.length) →
    Starts source p
  | stray {c : Char} {rest : List Char} :
    (∀ kind, ¬ Unended kind (c :: rest)) →
    (∀ kind text, Lexeme kind text → ¬ text <+: c :: rest) → Starts (c :: rest) ⟨.stray, [c]⟩

-- A text taken apart piece by piece.
inductive Split : List Char → List Piece → Prop
  | nil : Split [] []
  | cons {p : Piece} {rest : List Char} {ps : List Piece} :
    Starts (p.text ++ rest) p → Split rest ps → Split (p.text ++ rest) (p :: ps)

-- Consecutive pieces with the lines on which they end. The first starts on the given line.
def placed : (line : Int) → List Piece → List (Piece × Int)
  | _, [] => []
  | line, p :: ps => (p, line + p.lineFeeds) :: placed (line + p.lineFeeds) ps

def Piece.isToken (p : Piece) : Bool :=
  match p.kind with
  | .token _ => true
  | _ => false

def Piece.isFault (p : Piece) : Bool :=
  match p.kind with
  | .stray | .openString | .openComment => true
  | _ => false

-- The token of a piece that ends on the given line.
structure Piece.Makes (p : Piece) (line : Int) (t : Token) : Prop where
  kind : p.kind = .token t.kind
  lexeme : t.lexeme = String.ofList p.text
  line : t.line = line
  number : t.kind = .number → t.literal = .number (Number.read p.text)
  string : t.kind = .string →
    ∃ body, p.text = '"' :: (body ++ ['"']) ∧ t.literal = .string (String.ofList body)
  other : t.kind ≠ .number → t.kind ≠ .string → t.literal = .nil

-- What its author is told about a piece that belongs to no program.
inductive Piece.Reports : Piece → (line : Int) → Diagnostic → Prop
  | stray {c : Char} {line : Int} : Reports ⟨.stray, [c]⟩ line
    ⟨.scanning, line, none, "Unexpected character '" ++ String.singleton c ++ "'."⟩
  | string {text : List Char} {line : Int} : Reports ⟨.openString, text⟩ line
    ⟨.scanning, line, none, "Unterminated string."⟩
  | comment {text : List Char} {line : Int} : Reports ⟨.openComment, text⟩ line
    ⟨.scanning, line, none, "Unterminated block comment."⟩

-- What is cut off a text is the piece at its start.
theorem starts_iff {c : Char} {rest : List Char} {p : Piece} :
    Starts (c :: rest) p ↔ p = (cut c rest).1 := by
  have hcuts := cuts_cut c rest
  have hfront : (cut c rest).1.text <+: c :: rest := ⟨_, text_cut c rest⟩
  have hcovers {kind : PieceKind} {text : List Char} (h : Lexeme kind text)
      (hp : text <+: c :: rest) := h.covered hp
  have hunended {kind : PieceKind} (h : Unended kind (c :: rest)) := h.cut_eq
  generalize (cut c rest).1 = q at *
  constructor
  · intro h
    cases h with
    | unended h => exact (hunended h).symm
    | longest hnone hlexeme hp hmax =>
      obtain heq | hlt := hcovers hlexeme hp
      · exact heq.symm
      · cases hcuts with
        | lexeme h => exact absurd hlt (hmax _ _ h hfront).not_gt
        | unended h => exact absurd h (hnone _)
        | stray => exact absurd (by simpa using hlt) hlexeme.ne_nil
    | stray hnone hfree =>
      cases hcuts with
      | lexeme h => exact absurd hfront (hfree _ _ h)
      | unended h => exact absurd h (hnone _)
      | stray h => rw [(List.cons.inj h).1]
  · rintro rfl
    by_cases hany : ∃ kind, Unended kind (c :: rest)
    · obtain ⟨kind, h⟩ := hany
      rw [hunended h]
      exact .unended h
    · have hnone := not_exists.1 hany
      cases hcuts with
      | lexeme h =>
        refine .longest hnone h hfront fun kind text hlexeme hp => ?_
        obtain rfl | hlt := hcovers hlexeme hp
        · exact le_rfl
        · exact hlt.le
      | unended h => exact absurd h (hnone _)
      | @stray d after h =>
        obtain ⟨rfl, -⟩ := List.cons.inj h
        refine .stray hnone fun kind text hlexeme hp => ?_
        obtain heq | hlt := hcovers hlexeme hp
        · obtain ⟨rfl, -⟩ := Piece.mk.inj heq
          simpa using hlexeme.ordinary
        · exact absurd (by simpa using hlt) hlexeme.ne_nil

theorem not_starts_nil {p : Piece} : ¬ Starts [] p := by
  intro h
  cases h with
  | unended h =>
    cases h with
    | comment hopening => simp at hopening
  | longest _ hlexeme hfront => exact hlexeme.ne_nil (List.prefix_nil.1 hfront)

-- The pieces of a text are the only way to take it apart.
theorem split_iff {source : List Char} {ps : List Piece} :
    Split source ps ↔ ps = pieces source := by
  fun_induction pieces source generalizing ps with
  | case1 =>
    constructor
    · generalize hsource : [] = source
      intro h
      cases h with
      | nil => rfl
      | cons hstart =>
        rw [← hsource] at hstart
        exact absurd hstart not_starts_nil
    · rintro rfl
      exact .nil
  | case2 c rest ih =>
    constructor
    · generalize hsource : c :: rest = source
      intro h
      cases h with
      | nil => cases hsource
      | cons hstart hrest =>
        rw [← hsource, starts_iff] at hstart
        subst hstart
        rw [← text_cut c rest, List.append_cancel_left_eq] at hsource
        subst hsource
        rw [ih.1 hrest]
    · rintro rfl
      have hstart : Starts (c :: rest) (cut c rest).1 := starts_iff.2 rfl
      rw [← text_cut c rest] at hstart ⊢
      exact .cons hstart (ih.2 rfl)

theorem makes_of_token? {source : List Char} {p : Piece} {line : Int} (h : Cuts source p) :
    (p.isToken = true ∧ ∃ t, p.token? line = some t ∧ p.Makes line t) ∨
      p.isToken = false ∧ p.token? line = none := by
  obtain ⟨kind, text⟩ := p
  cases kind with
  | token kind =>
    left
    refine ⟨rfl, _, rfl, rfl, rfl, rfl, ?_, ?_, ?_⟩
    · rintro rfl
      rfl
    · rintro rfl
      obtain ⟨body, -, rfl⟩ := (h.lexeme_of_token rfl).body
      exact ⟨body, rfl, by simp [literalOf]⟩
    · intro hnumber hstring
      dsimp only [literalOf] at hnumber hstring ⊢
      split
      · exact absurd rfl hnumber
      · exact absurd rfl hstring
      · rfl
  | _ => exact .inr ⟨rfl, rfl⟩

theorem reports_of_error? {source : List Char} {p : Piece} {line : Int} (h : Cuts source p) :
    (p.isFault = true ∧
      ∃ d, (p.error? line).map ScanError.diagnostic = some d ∧ p.Reports line d) ∨
      p.isFault = false ∧ (p.error? line).map ScanError.diagnostic = none := by
  cases h with
  | lexeme h =>
    right
    obtain ⟨kind, text⟩ := p
    obtain rfl | rfl | ⟨token, rfl⟩ := h.ordinary <;> exact ⟨rfl, rfl⟩
  | unended h =>
    left
    cases h with
    | comment => exact ⟨rfl, _, rfl, .comment⟩
    | string => exact ⟨rfl, _, rfl, .string⟩
  | stray => exact .inl ⟨rfl, _, rfl, .stray⟩

theorem mem_of_mem_placed {line : Int} {ps : List Piece} {q : Piece × Int}
    (h : q ∈ placed line ps) : q.1 ∈ ps := by
  induction ps generalizing line with
  | nil => simp [placed] at h
  | cons p ps ih =>
    obtain rfl | h := List.mem_cons.1 h
    · exact List.mem_cons_self
    · exact List.mem_cons_of_mem p (ih h)

theorem words_eq_filterMap (line : Int) (ps : List Piece) :
    words line ps = (placed line ps).filterMap fun q => q.1.token? q.2 := by
  induction ps generalizing line with
  | nil => rfl
  | cons p ps ih =>
    rw [words, placed, List.filterMap_cons, ih]
    cases p.token? (line + p.lineFeeds) <;> rfl

theorem errors_eq_filterMap (line : Int) (ps : List Piece) :
    (collect line ps).errors = (placed line ps).filterMap fun q => q.1.error? q.2 := by
  induction ps generalizing line with
  | nil => rfl
  | cons p ps ih =>
    rw [collect, placed, List.filterMap_cons]
    dsimp only
    rw [ih]
    cases p.error? (line + p.lineFeeds) <;> rfl

-- Where a kept item gives something and no other does, what is given matches what is kept.
theorem forall₂_filterMap {α β : Type} {keep : α → Bool} {give : α → Option β} {R : α → β → Prop}
    {xs : List α}
    (h : ∀ x ∈ xs, (keep x = true ∧ ∃ y, give x = some y ∧ R x y) ∨ keep x = false ∧ give x = none) :
    List.Forall₂ R (xs.filter keep) (xs.filterMap give) := by
  induction xs with
  | nil => exact .nil
  | cons x xs ih =>
    obtain ⟨hx, hxs⟩ := List.forall_mem_cons.1 h
    obtain ⟨hkeep, y, hgive, hy⟩ | ⟨hkeep, hgive⟩ := hx
    · rw [List.filter_cons_of_pos hkeep, List.filterMap_cons_some hgive]
      exact .cons hy (ih hxs)
    · rw [List.filter_cons_of_neg (by simp [hkeep]), List.filterMap_cons_none hgive]
      exact ih hxs

-- Scanning takes a text apart in the one way in which each piece is the longest that can stand
-- there. Its tokens and errors are those of the pieces, in order and each on its line.
theorem scan_longest_match (source : String) :
    ∃ ps, (∀ qs, Split source.toList qs ↔ qs = ps) ∧
      ps.flatMap Piece.text = source.toList ∧
      (∃ words, (scan source).tokens =
          words ++ [⟨.eof, "", .nil, 1 + source.toList.count '\n'⟩] ∧
        List.Forall₂ (fun q t => q.1.Makes q.2 t) ((placed 1 ps).filter (·.1.isToken)) words) ∧
      List.Forall₂ (fun q d => q.1.Reports q.2 d) ((placed 1 ps).filter (·.1.isFault))
        ((scan source).errors.map ScanError.diagnostic) := by
  have hcuts : ∀ q ∈ placed 1 (pieces source.toList), ∃ rest, Cuts rest q.1 := fun q hq =>
    cuts_of_mem_pieces (mem_of_mem_placed hq)
  refine ⟨pieces source.toList, fun qs => split_iff, flatten_pieces _,
    ⟨words 1 (pieces source.toList), ?_, ?_⟩, ?_⟩
  · rw [scan, tokens_collect, feeds_pieces]
  · rw [words_eq_filterMap]
    refine forall₂_filterMap fun q hq => ?_
    obtain ⟨rest, h⟩ := hcuts q hq
    exact makes_of_token? h
  · rw [scan, errors_eq_filterMap, List.map_filterMap]
    refine forall₂_filterMap fun q hq => ?_
    obtain ⟨rest, h⟩ := hcuts q hq
    exact reports_of_error? h

-- A point belongs to no number without a digit after it, and an end of a comment to no comment
-- without an opening before it.
example : (scan "1.a!==orchid*/*").tokens.map Token.lexeme =
    ["1", ".", "a", "!=", "=", "orchid", "*", ""] := by
  decide +kernel

end Lox.Source
