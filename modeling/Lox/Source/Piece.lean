import Lox.Number.Numeral
import Lox.Token

namespace Lox.Source

-- What a piece of program text is: a token, something between tokens, or something that belongs
-- to no program.
inductive PieceKind where
  | token (kind : TokenKind)
  | blank
  | comment
  | stray
  | openString
  | openComment
deriving DecidableEq, Repr

structure Piece where
  kind : PieceKind
  text : List Char
deriving DecidableEq, Repr

-- The characters that are a token whatever follows them.
def punctuation? : Char → Option TokenKind
  | '(' => some .leftParen
  | ')' => some .rightParen
  | '{' => some .leftBrace
  | '}' => some .rightBrace
  | ',' => some .comma
  | '.' => some .dot
  | '-' => some .minus
  | '+' => some .plus
  | ';' => some .semicolon
  | '*' => some .star
  | _ => none

-- The characters that are one token alone and another one with `=` after them.
def comparison? : Char → Option (TokenKind × TokenKind)
  | '!' => some (.bang, .bangEqual)
  | '=' => some (.equal, .equalEqual)
  | '<' => some (.less, .lessEqual)
  | '>' => some (.greater, .greaterEqual)
  | _ => none

def isBlank (c : Char) : Bool :=
  c = ' ' || c = '\t' || c = '\r' || c = '\n'

def isWordStart (c : Char) : Bool :=
  ('a' ≤ c && c ≤ 'z') || ('A' ≤ c && c ≤ 'Z') || c = '_'

def isWordPart (c : Char) : Bool :=
  isWordStart c || Number.isDigit c

-- Cuts the text after the end of a comment of which `depth` openings are still unmatched.
-- Inside a comment an opening counts one up and an end one down; none is left at the cut.
def cutComment : (depth : Nat) → List Char → Option (List Char × List Char)
  | 0, rest => some ([], rest)
  | _ + 1, [] => none
  | depth + 1, '/' :: '*' :: rest =>
    (cutComment (depth + 2) rest).map fun (text, rest) => ('/' :: '*' :: text, rest)
  | depth + 1, '*' :: '/' :: rest =>
    (cutComment depth rest).map fun (text, rest) => ('*' :: '/' :: text, rest)
  | depth + 1, c :: rest =>
    (cutComment (depth + 1) rest).map fun (text, rest) => (c :: text, rest)

-- The piece that starts with a slash, and the text after it.
def cutSlash : List Char → Piece × List Char
  | '/' :: rest =>
    (⟨.comment, '/' :: '/' :: rest.takeWhile (· ≠ '\n')⟩, rest.dropWhile (· ≠ '\n'))
  | '*' :: rest =>
    match cutComment 1 rest with
    | some (text, rest) => (⟨.comment, '/' :: '*' :: text⟩, rest)
    | none => (⟨.openComment, '/' :: '*' :: rest⟩, [])
  | rest => (⟨.token .slash, ['/']⟩, rest)

-- The piece that starts with a quote, and the text after it.
def cutQuote (rest : List Char) : Piece × List Char :=
  let body := rest.takeWhile (· ≠ '"')
  match rest.dropWhile (· ≠ '"') with
  | [] => (⟨.openString, '"' :: body⟩, [])
  | quote :: rest => (⟨.token .string, '"' :: (body ++ [quote])⟩, rest)

-- The number that starts with the digit `c`, and the text after it. A point belongs to the
-- number only if a digit follows.
def cutNumber (c : Char) (rest : List Char) : Piece × List Char :=
  let whole := c :: rest.takeWhile Number.isDigit
  match rest.dropWhile Number.isDigit with
  | '.' :: d :: rest =>
    if Number.isDigit d then
      (⟨.token .number, whole ++ '.' :: d :: rest.takeWhile Number.isDigit⟩,
        rest.dropWhile Number.isDigit)
    else
      (⟨.token .number, whole⟩, '.' :: d :: rest)
  | rest => (⟨.token .number, whole⟩, rest)

-- The word that starts with `c`, and the text after it.
def cutWord (c : Char) (rest : List Char) : Piece × List Char :=
  let word := c :: rest.takeWhile isWordPart
  (⟨.token (wordKind (String.ofList word)), word⟩, rest.dropWhile isWordPart)

-- The first piece of the text `c :: rest`, and the text after it. The piece is the longest that
-- can start here.
def cut (c : Char) (rest : List Char) : Piece × List Char :=
  match punctuation? c with
  | some kind => (⟨.token kind, [c]⟩, rest)
  | none =>
    match comparison? c with
    | some (alone, withEqual) =>
      match rest with
      | '=' :: rest => (⟨.token withEqual, [c, '=']⟩, rest)
      | rest => (⟨.token alone, [c]⟩, rest)
    | none =>
      if c = '/' then cutSlash rest
      else if isBlank c then (⟨.blank, [c]⟩, rest)
      else if c = '"' then cutQuote rest
      else if Number.isDigit c then cutNumber c rest
      else if isWordStart c then cutWord c rest
      else (⟨.stray, [c]⟩, rest)

theorem cutComment_eq_append {depth : Nat} {source text rest : List Char}
    (h : cutComment depth source = some (text, rest)) : source = text ++ rest := by
  fun_induction cutComment depth source generalizing text rest with
  | case1 => simp_all
  | case2 => simp at h
  | case3 depth source ih =>
    obtain ⟨⟨t, r⟩, ht, he⟩ := Option.map_eq_some_iff.1 h
    cases he
    simp [ih ht]
  | case4 depth source ih =>
    obtain ⟨⟨t, r⟩, ht, he⟩ := Option.map_eq_some_iff.1 h
    cases he
    simp [ih ht]
  | case5 depth c source _ _ ih =>
    obtain ⟨⟨t, r⟩, ht, he⟩ := Option.map_eq_some_iff.1 h
    cases he
    simp [ih ht]

-- Cutting loses nothing: the piece and the text after it make up the text.
theorem text_cutSlash (rest : List Char) :
    (cutSlash rest).1.text ++ (cutSlash rest).2 = '/' :: rest := by
  unfold cutSlash
  split
  · simp [List.takeWhile_append_dropWhile]
  · split
    · next h => simp [cutComment_eq_append h]
    · simp
  · simp

theorem text_cutQuote (rest : List Char) :
    (cutQuote rest).1.text ++ (cutQuote rest).2 = '"' :: rest := by
  have h := List.takeWhile_append_dropWhile (p := (· ≠ '"')) (l := rest)
  unfold cutQuote
  split
  · next hd => rw [hd] at h; simpa using h
  · next hd => rw [hd] at h; simpa using h

theorem text_cutNumber (c : Char) (rest : List Char) :
    (cutNumber c rest).1.text ++ (cutNumber c rest).2 = c :: rest := by
  have h := List.takeWhile_append_dropWhile (p := Number.isDigit) (l := rest)
  unfold cutNumber
  split
  · next d after hd =>
    rw [hd] at h
    split
    · simpa [List.takeWhile_append_dropWhile] using h
    · simpa using h
  · simp

theorem text_cutWord (c : Char) (rest : List Char) :
    (cutWord c rest).1.text ++ (cutWord c rest).2 = c :: rest := by
  simp [cutWord, List.takeWhile_append_dropWhile]

theorem text_cut (c : Char) (rest : List Char) :
    (cut c rest).1.text ++ (cut c rest).2 = c :: rest := by
  unfold cut
  split
  · simp
  · split
    · split <;> simp
    · split
      · next h => simpa [h] using text_cutSlash rest
      · split
        · simp
        · split
          · next h => simpa [h] using text_cutQuote rest
          · split
            · exact text_cutNumber c rest
            · split
              · exact text_cutWord c rest
              · simp

theorem text_cut_ne_nil (c : Char) (rest : List Char) : (cut c rest).1.text ≠ [] := by
  unfold cut cutSlash cutQuote cutNumber cutWord
  repeat' split
  all_goals simp

-- What is left after a piece is shorter, so that cutting piece by piece ends.
theorem length_cut_lt (c : Char) (rest : List Char) : (cut c rest).2.length < rest.length + 1 := by
  have h := congrArg List.length (text_cut c rest)
  have hn := List.length_pos_iff.2 (text_cut_ne_nil c rest)
  simp only [List.length_append, List.length_cons] at h
  omega

-- The pieces of a program text, in order.
def pieces : List Char → List Piece
  | [] => []
  | c :: rest => (cut c rest).1 :: pieces (cut c rest).2
termination_by source => source.length
decreasing_by exact length_cut_lt c rest

-- The pieces of a text make it up without gap or overlap.
theorem flatten_pieces (source : List Char) : (pieces source).flatMap Piece.text = source := by
  fun_induction pieces source with
  | case1 => rfl
  | case2 c rest ih => simp [ih, text_cut]

end Lox.Source
