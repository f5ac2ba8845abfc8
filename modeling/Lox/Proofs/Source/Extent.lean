import Lox.Proofs.Source.Counter
import Lox.Proofs.Source.LongestMatch

namespace Lox.Source

-- A piece and the number of characters of its text that stand before it.
structure Extent where
  piece : Piece
  start : Nat

-- How many characters of the text there are up to the end of the piece.
def Extent.stop (e : Extent) : Nat :=
  e.start + e.piece.text.length

-- Consecutive pieces where they stand. So many characters stand before the first.
def extents : (start : Nat) → List Piece → List Extent
  | _, [] => []
  | start, p :: ps => ⟨p, start⟩ :: extents (start + p.text.length) ps

-- The line that is reached after so many characters of a text, if its first line is line 1.
def lineAfter (source : String) (offset : Nat) : Int :=
  1 + (source.toList.take offset).count '\n'

-- The line of the end of a text.
def lastLine (source : String) : Int :=
  1 + source.toList.count '\n'

-- The token of a piece, on the line that the piece ends on.
structure Extent.Makes (source : String) (e : Extent) (t : Token) : Prop where
  kind : e.piece.kind = .token t.kind
  lexeme : e.piece.text = t.lexeme.toList
  line : t.line = lineAfter source e.stop

-- The error for a piece that belongs to no program. A character is reported on its own line, what
-- nothing ends on the line on which the text ends.
inductive Extent.Reports (source : String) (e : Extent) (error : ScanError) : Prop
  | stray {c : Char} : e.piece = ⟨.stray, [c]⟩ → error.fault = .unexpected c →
    error.line = lineAfter source e.start → Reports source e error
  | string : e.piece.kind = .openString → error.fault = .unterminatedString →
    e.stop = source.toList.length → error.line = lastLine source → Reports source e error
  | comment : e.piece.kind = .openComment → error.fault = .unterminatedComment →
    e.stop = source.toList.length → error.line = lastLine source → Reports source e error

theorem lineAfter_length (source : String) :
    lineAfter source source.toList.length = lastLine source := by
  rw [lineAfter, List.take_length, lastLine]

-- Every piece is what is cut off at its start.
theorem cut_of_mem_extents (before : List Char) {rest : List Char} {e : Extent}
    (h : e ∈ extents before.length (pieces rest)) :
    ∃ c after, (before ++ rest).drop e.start = c :: after ∧ e.piece = (cut c after).1 := by
  fun_induction pieces rest generalizing before with
  | case1 => simp [extents] at h
  | case2 c rest ih =>
    rw [extents] at h
    obtain rfl | h := List.mem_cons.1 h
    · exact ⟨c, rest, List.drop_left .., rfl⟩
    · rw [← List.length_append] at h
      have hlater := ih _ h
      rwa [List.append_assoc, text_cut] at hlater

-- The line on which each piece ends counts the line feeds up to its end. It is carried on from
-- piece to piece, and what was read before is the invariant.
theorem placed_eq_extents (before : List Char) (ps : List Piece) :
    placed (1 + before.count '\n') ps = (extents before.length ps).map fun e =>
      (e.piece, lineAfter (String.ofList (before ++ ps.flatMap Piece.text)) e.stop) := by
  induction ps generalizing before with
  | nil => rfl
  | cons p ps ih =>
    have hline : 1 + (before.count '\n' : Int) + p.lineFeeds =
        1 + (before ++ p.text).count '\n' := by
      rw [Piece.lineFeeds, List.count_append]
      omega
    have htake : (before ++ (p.text ++ ps.flatMap Piece.text)).take
        (before.length + p.text.length) = before ++ p.text := by
      rw [← List.append_assoc, ← List.length_append, List.take_left]
    rw [placed, hline, ih, extents, List.map_cons, List.length_append, List.flatMap_cons]
    simp only [Extent.stop, lineAfter, String.toList_ofList, htake, List.append_assoc]

theorem placed_pieces (source : String) :
    placed 1 (pieces source.toList) =
      (extents 0 (pieces source.toList)).map fun e => (e.piece, lineAfter source e.stop) := by
  have h := placed_eq_extents [] (pieces source.toList)
  rwa [List.nil_append, flatten_pieces, String.ofList_toList] at h

section

variable {source : String} {e : Extent}

-- A piece of a text is what stands between its start and its stop.
theorem slice_extent (h : e ∈ extents 0 (pieces source.toList)) :
    (source.toList.take e.stop).drop e.start = e.piece.text := by
  obtain ⟨c, after, hdrop, hpiece⟩ := cut_of_mem_extents [] h
  rw [List.nil_append] at hdrop
  have htext := text_cut c after
  rw [← hpiece] at htext
  rw [List.drop_take, hdrop, Extent.stop, Nat.add_sub_cancel_left, ← htext, List.take_left]

-- What goes on to the end of the text stops there.
theorem lineAfter_stop_of_rest (hdrop : source.toList.drop e.start = e.piece.text)
    (hne : e.piece.text ≠ []) :
    e.stop = source.toList.length ∧ lineAfter source e.stop = lastLine source := by
  have hlength := congrArg List.length hdrop
  have hpos := List.length_pos_iff.2 hne
  rw [List.length_drop] at hlength
  have hstop : e.stop = source.toList.length := by
    rw [Extent.stop]
    omega
  exact ⟨hstop, hstop ▸ lineAfter_length source⟩

-- A line feed is white space, so that a character out of place ends on the line it starts on.
theorem lineAfter_stop_of_stray {c : Char} {after : List Char}
    (hdrop : source.toList.drop e.start = c :: after) (hpiece : e.piece = ⟨.stray, [c]⟩)
    (hcut : e.piece = (cut c after).1) : lineAfter source e.stop = lineAfter source e.start := by
  have hc : c ≠ '\n' := by
    rintro rfl
    rw [hpiece, cut_blank (by decide)] at hcut
    cases hcut
  have htake : source.toList.take e.stop = source.toList.take e.start ++ [c] := by
    rw [Extent.stop, hpiece, List.take_add, hdrop]
    rfl
  simp [lineAfter, htake, hc]

theorem makes_or_silent (h : e ∈ extents 0 (pieces source.toList)) :
    (e.piece.isToken = true ∧
      ∃ t, e.piece.token? (lineAfter source e.stop) = some t ∧ e.Makes source t) ∨
      e.piece.isToken = false ∧ e.piece.token? (lineAfter source e.stop) = none := by
  obtain ⟨c, after, -, hcut⟩ := cut_of_mem_extents [] h
  obtain ⟨htoken, t, ht, hmakes⟩ | hnone :=
    @makes_of_token? _ _ (lineAfter source e.stop) (hcut ▸ cuts_cut c after)
  · exact .inl ⟨htoken, t, ht, hmakes.kind, by simp [hmakes.lexeme], hmakes.line⟩
  · exact .inr hnone

theorem reports_or_silent (h : e ∈ extents 0 (pieces source.toList)) :
    (e.piece.isFault = true ∧
      ∃ error, e.piece.error? (lineAfter source e.stop) = some error ∧ e.Reports source error) ∨
      e.piece.isFault = false ∧ e.piece.error? (lineAfter source e.stop) = none := by
  obtain ⟨c, after, hdrop, hcut⟩ := cut_of_mem_extents [] h
  rw [List.nil_append] at hdrop
  have hcuts := cuts_cut c after
  rw [← hcut] at hcuts
  obtain ⟨⟨kind, text⟩, start⟩ := e
  cases hcuts with
  | lexeme hlexeme =>
    right
    obtain rfl | rfl | ⟨token, rfl⟩ := hlexeme.ordinary <;> exact ⟨rfl, rfl⟩
  | unended hunended =>
    left
    obtain ⟨hstop, hline⟩ := lineAfter_stop_of_rest hdrop (List.cons_ne_nil c after)
    cases hunended with
    | comment => exact ⟨rfl, _, rfl, .comment rfl rfl hstop hline⟩
    | string => exact ⟨rfl, _, rfl, .string rfl rfl hstop hline⟩
  | stray hsource =>
    obtain ⟨rfl, rfl⟩ := List.cons.inj hsource
    exact .inl ⟨rfl, _, rfl, .stray rfl rfl (lineAfter_stop_of_stray hdrop rfl hcut)⟩

end

-- Every token is on the line on which its text ends, however many line feeds stand in the strings,
-- comments and errors before it and in itself. A character out of place is reported on its own
-- line, and what is left open on the line of the end. The lines are those of a counter that is
-- carried along.
theorem scan_lines_exact (source : String) :
    scan source = countScan 1 source.toList ∧ ∃ ps, Split source.toList ps ∧
      (∀ e ∈ extents 0 ps, (source.toList.take e.stop).drop e.start = e.piece.text) ∧
      (∃ words, (scan source).tokens = words ++ [⟨.eof, "", .nil, lastLine source⟩] ∧
        List.Forall₂ (Extent.Makes source) ((extents 0 ps).filter (·.piece.isToken)) words) ∧
      List.Forall₂ (Extent.Reports source) ((extents 0 ps).filter (·.piece.isFault))
        (scan source).errors := by
  refine ⟨(countScan_eq 1 _).symm, pieces source.toList, split_iff.2 rfl, fun e he => slice_extent he,
    ⟨words 1 (pieces source.toList), ?_, ?_⟩, ?_⟩
  · rw [scan, tokens_collect, feeds_pieces, lastLine]
  · rw [words_eq_filterMap, placed_pieces, List.filterMap_map]
    exact forall₂_filterMap fun e he => makes_or_silent he
  · rw [scan, errors_eq_filterMap, placed_pieces, List.filterMap_map]
    exact forall₂_filterMap fun e he => reports_or_silent he

-- The string ends on line 4 and the comment is left open on line 5, which is the last.
example : (scan "/*\n*/ \"\n\n\" # /*\n").tokens.map Token.line = [4, 5] ∧
    (scan "/*\n*/ \"\n\n\" # /*\n").errors.map ScanError.line = [4, 5] := by
  decide +kernel

end Lox.Source
