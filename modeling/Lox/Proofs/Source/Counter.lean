import Lox.Proofs.Source.LongestCut
import Lox.Source.Scan

namespace Lox.Source

-- The line behind a character, with a counter that moves at line feeds.
def moved (line : Int) (c : Char) : Int :=
  if c = '\n' then line + 1 else line

-- What was read, what is left, and where the counter of lines stands.
structure Counted where
  text : List Char
  rest : List Char
  line : Int

def Counted.cons (c : Char) (counted : Counted) : Counted :=
  { counted with text := c :: counted.text }

-- Reads a string up to its end, and moves the counter on the way.
def countString : (line : Int) → List Char → Counted
  | line, [] => ⟨[], [], line⟩
  | line, c :: rest =>
    if c = '"' then ⟨[], c :: rest, line⟩
    else (countString (moved line c) rest).cons c

-- Reads a comment up to the end of its last opening. The flag says whether there is one.
def countComment : (depth : Nat) → (line : Int) → List Char → Bool × Counted
  | 0, line, rest => (true, ⟨[], rest, line⟩)
  | _ + 1, line, [] => (false, ⟨[], [], line⟩)
  | depth + 1, line, '/' :: '*' :: rest =>
    (countComment (depth + 2) line rest).map id fun counted => (counted.cons '*').cons '/'
  | depth + 1, line, '*' :: '/' :: rest =>
    (countComment depth line rest).map id fun counted => (counted.cons '/').cons '*'
  | depth + 1, line, c :: rest =>
    (countComment (depth + 1) (moved line c) rest).map id (·.cons c)

-- A piece and what is left behind it. The counter moves at a line feed between the tokens, in a
-- string and in a comment that can be nested, and nowhere else.
def countCut (line : Int) (c : Char) (rest : List Char) : Piece × List Char × Int :=
  match c, rest with
  | '\n', rest => (⟨.blank, ['\n']⟩, rest, line + 1)
  | '"', rest =>
    let body := countString line rest
    match body.rest with
    | [] => (⟨.openString, '"' :: body.text⟩, [], body.line)
    | quote :: rest => (⟨.token .string, '"' :: (body.text ++ [quote])⟩, rest, body.line)
  | '/', '*' :: rest =>
    match countComment 1 line rest with
    | (true, body) => (⟨.comment, '/' :: '*' :: body.text⟩, body.rest, body.line)
    | (false, body) => (⟨.openComment, '/' :: '*' :: body.text⟩, [], body.line)
  | c, rest => ((cut c rest).1, (cut c rest).2, line)

theorem count_moved (line : Int) (c : Char) (text : List Char) :
    moved line c + text.count '\n' = line + (c :: text).count '\n' := by
  unfold moved
  split
  · next h =>
    rw [h, List.count_cons_self]
    omega
  · next h => rw [List.count_cons_of_ne h]

theorem countString_eq (line : Int) (rest : List Char) :
    countString line rest = ⟨rest.takeWhile (· ≠ '"'), rest.dropWhile (· ≠ '"'),
      line + (rest.takeWhile (· ≠ '"')).count '\n'⟩ := by
  induction rest generalizing line with
  | nil => simp [countString]
  | cons c rest ih =>
    rw [countString]
    split
    · next h => simp [h]
    · next h => simp [ih, h, Counted.cons, count_moved]

theorem countComment_eq (depth : Nat) (line : Int) (rest : List Char) :
    countComment depth line rest =
      match cutComment depth rest with
      | some (text, after) => (true, ⟨text, after, line + text.count '\n'⟩)
      | none => (false, ⟨rest, [], line + rest.count '\n'⟩) := by
  fun_induction countComment depth line rest with
  | case1 => simp [cutComment]
  | case2 => simp [cutComment]
  | case3 depth line rest ih =>
    rw [ih, cutComment]
    cases cutComment (depth + 2) rest <;> simp [Counted.cons]
  | case4 depth line rest ih =>
    rw [ih, cutComment]
    cases cutComment depth rest <;> simp [Counted.cons]
  | case5 depth line c rest h h' ih =>
    rw [ih, cutComment]
    · cases cutComment (depth + 1) rest <;> simp [Counted.cons, count_moved]
    · exact h
    · exact h'

theorem Digits.notMem_feed {text : List Char} (h : Digits text) : '\n' ∉ text :=
  fun hmem => absurd (h.2 _ hmem) (by decide)

theorem Word.notMem_feed {text : List Char} (h : Word text) : '\n' ∉ text := by
  cases text with
  | nil => exact List.not_mem_nil
  | cons c rest =>
    obtain ⟨hc, hrest⟩ := h
    intro hmem
    obtain rfl | hmem := List.mem_cons.1 hmem
    · exact absurd hc (by decide)
    · exact absurd (hrest _ hmem) (by decide)

-- The other pieces hold no line feed.
theorem notMem_cut {c : Char} {rest : List Char} (hfeed : c ≠ '\n') (hquote : c ≠ '"')
    (hcomment : ¬ ['/', '*'] <+: c :: rest) : '\n' ∉ (cut c rest).1.text := by
  have hcuts := cuts_cut c rest
  have htext := text_cut c rest
  generalize (cut c rest).1 = p at hcuts htext ⊢
  have hhead : ∀ d text, p.text = d :: text → d = c := fun d text h => by
    rw [h] at htext
    exact (List.cons.inj htext).1
  cases hcuts with
  | lexeme hlexeme =>
    obtain ⟨kind, text⟩ := p
    dsimp only at hlexeme htext hhead ⊢
    cases hlexeme with
    | operator hmem =>
      have hall : ∀ pair ∈ operators, '\n' ∉ pair.1.toList := by decide
      exact hall _ hmem
    | whole hdigits => exact hdigits.notMem_feed
    | decimal hwhole hfraction =>
      simp [hwhole.notMem_feed, hfraction.notMem_feed]
    | reserved hmem =>
      have hall : ∀ pair ∈ reservedWords, '\n' ∉ pair.1.toList := by decide
      exact hall _ hmem
    | name hword => exact hword.notMem_feed
    | string => exact absurd (hhead _ _ rfl) hquote.symm
    | blank =>
      obtain rfl := hhead _ _ rfl
      simpa using hfeed.symm
    | lineComment hbody => simpa using hbody
    | blockComment hblock =>
      obtain ⟨inner, -, hmarks⟩ := hblock
      obtain ⟨after, rfl, -⟩ := eq_of_marks_opening hmarks
      exact absurd ⟨_, htext⟩ hcomment
  | unended hunended =>
    cases hunended with
    | comment hprefix => exact absurd hprefix hcomment
    | string => exact absurd (hhead _ _ rfl) hquote.symm
  | stray =>
    obtain rfl := hhead _ _ rfl
    simpa using hfeed.symm

theorem countCut_eq (line : Int) (c : Char) (rest : List Char) :
    countCut line c rest =
      ((cut c rest).1, (cut c rest).2, line + (cut c rest).1.lineFeeds) := by
  unfold countCut
  split
  · rw [cut_blank (by decide)]
    rfl
  · have hcut : cut '"' rest = cutQuote rest := rfl
    rw [hcut, cutQuote, countString_eq]
    cases hdrop : rest.dropWhile (· ≠ '"') with
    | nil => simp [Piece.lineFeeds]
    | cons quote after =>
      obtain rfl := eq_of_dropWhile_ne hdrop
      simp [Piece.lineFeeds, List.count_append]
  · next rest =>
    have hcut : cut '/' ('*' :: rest) = cutSlash ('*' :: rest) := rfl
    rw [hcut, cutSlash, countComment_eq]
    cases cutComment 1 rest with
    | none => simp [Piece.lineFeeds]
    | some pair => simp [Piece.lineFeeds]
  · next hfeed hquote hcomment =>
    have hstart : ¬ ['/', '*'] <+: c :: rest := by
      rintro ⟨after, hafter⟩
      obtain ⟨hc, hrest⟩ := List.cons.inj hafter
      exact hcomment after hc.symm hrest.symm
    have hnone := notMem_cut hfeed hquote hstart
    rw [Piece.lineFeeds, List.count_eq_zero.2 hnone]
    simp

-- Reads a text with a counter of lines that stands at the given line.
def countScan (line : Int) : List Char → Scan
  | [] => ⟨[⟨.eof, "", .nil, line⟩], []⟩
  | c :: rest =>
    let piece := (countCut line c rest).1
    let reached := (countCut line c rest).2.2
    let others := countScan reached (countCut line c rest).2.1
    ⟨(piece.token? reached).toList ++ others.tokens,
      (piece.error? reached).toList ++ others.errors⟩
termination_by source => source.length
decreasing_by
  rw [countCut_eq]
  exact length_cut_lt c rest

theorem countScan_eq (line : Int) (source : List Char) :
    countScan line source = collect line (pieces source) := by
  fun_induction pieces source generalizing line with
  | case1 => rw [countScan, collect]
  | case2 c rest ih =>
    rw [countScan, collect, countCut_eq]
    simp only [ih]

end Lox.Source
