import Lox.Proofs.Source.LongestCut
import Lox.Proofs.Syntax.Relined
import Lox.Source.Scan

namespace Lox.Source

-- How many lines further the last of consecutive pieces ends than the first one starts.
def feeds (ps : List Piece) : Int :=
  (ps.flatMap Piece.text).count '\n'

@[simp] theorem feeds_nil : feeds [] = 0 := rfl

@[simp] theorem feeds_cons (p : Piece) (ps : List Piece) :
    feeds (p :: ps) = p.lineFeeds + feeds ps := by
  simp [feeds, Piece.lineFeeds]

-- The tokens of consecutive pieces of which the first starts on the given line, without the one
-- that marks the end.
def words : (line : Int) → List Piece → List Token
  | _, [] => []
  | line, p :: ps =>
    (p.token? (line + p.lineFeeds)).toList ++ words (line + p.lineFeeds) ps

theorem tokens_collect (line : Int) (ps : List Piece) :
    (collect line ps).tokens = words line ps ++ [⟨.eof, "", .nil, line + feeds ps⟩] := by
  induction ps generalizing line with
  | nil => simp [collect, words]
  | cons p ps ih =>
    rw [collect, words]
    simp only [ih, feeds_cons, List.append_assoc, Int.add_assoc]

theorem words_append (line : Int) (ps qs : List Piece) :
    words line (ps ++ qs) = words line ps ++ words (line + feeds ps) qs := by
  induction ps generalizing line with
  | nil => simp [words]
  | cons p ps ih =>
    rw [List.cons_append, words, words, ih]
    simp only [feeds_cons, List.append_assoc, Int.add_assoc]

theorem errors_append (line : Int) (ps qs : List Piece) :
    (collect line (ps ++ qs)).errors =
      (collect line ps).errors ++ (collect (line + feeds ps) qs).errors := by
  induction ps generalizing line with
  | nil => simp [collect]
  | cons p ps ih =>
    rw [List.cons_append, collect, collect]
    simp only [ih, feeds_cons, List.append_assoc, Int.add_assoc]

-- Pieces that start further down give the same tokens and errors further down.
theorem words_after (lines line : Int) (ps : List Piece) :
    words (line + lines) ps = (words line ps).map (·.relined (Token.lineAfter lines)) := by
  induction ps generalizing line with
  | nil => rfl
  | cons p ps ih =>
    have hline : line + lines + p.lineFeeds = line + p.lineFeeds + lines := by omega
    rw [words, words, hline, ih, List.map_append]
    congr 1
    unfold Piece.token?
    split <;> rfl

theorem errors_after (lines line : Int) (ps : List Piece) :
    (collect (line + lines) ps).errors =
      (collect line ps).errors.map fun e => { e with line := e.line + lines } := by
  induction ps generalizing line with
  | nil => rfl
  | cons p ps ih =>
    have hline : line + lines + p.lineFeeds = line + p.lineFeeds + lines := by omega
    rw [collect, collect, hline]
    simp only [ih, List.map_append]
    congr 1
    unfold Piece.error?
    split <;> rfl

-- The pieces of a text end as many lines further as there are line feeds in it.
theorem feeds_pieces (source : List Char) : feeds (pieces source) = source.count '\n' := by
  rw [feeds, flatten_pieces]

-- Every token of a text is a lexeme of its grammar.
theorem lexeme_of_mem_words {line : Int} {source : List Char} {t : Token}
    (h : t ∈ words line (pieces source)) :
    ∃ text line', Lexeme (.token t.kind) text ∧
      t = ⟨t.kind, String.ofList text, literalOf t.kind text, line'⟩ := by
  fun_induction pieces source generalizing line with
  | case1 => simp [words] at h
  | case2 c rest ih =>
    rw [words] at h
    obtain h | h := List.mem_append.1 h
    · unfold Piece.token? at h
      split at h
      · next kind hkind =>
        obtain rfl : t = _ := by simpa using h
        exact ⟨_, _, (cuts_cut c rest).lexeme_of_token hkind, rfl⟩
      · simp at h
    · exact ih h

theorem kind_of_mem_words {line : Int} {source : List Char} {t : Token}
    (h : t ∈ words line (pieces source)) : t.kind ≠ .eof := by
  obtain ⟨text, line', hlexeme, -⟩ := lexeme_of_mem_words h
  exact hlexeme.ne_eof

-- An open piece is an error, whatever stands around it.
theorem Piece.Open.error? {p : Piece} (h : p.Open) (line : Int) :
    ∃ e, p.error? line = some e ∧
      (e.fault = .unterminatedString ∨ e.fault = .unterminatedComment) := by
  obtain h | h := h
  · exact ⟨_, by rw [Piece.error?, h], .inl rfl⟩
  · exact ⟨_, by rw [Piece.error?, h], .inr rfl⟩

theorem error_of_open {line : Int} {ps : List Piece} {p : Piece} (hp : p ∈ ps) (h : p.Open) :
    ∃ e ∈ (collect line ps).errors,
      e.fault = .unterminatedString ∨ e.fault = .unterminatedComment := by
  obtain ⟨before, after, rfl⟩ := List.append_of_mem hp
  obtain ⟨e, he, hfault⟩ := h.error? (line + feeds before + p.lineFeeds)
  refine ⟨e, ?_, hfault⟩
  rw [errors_append, collect]
  simp [he]

end Lox.Source
