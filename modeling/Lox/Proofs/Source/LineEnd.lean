import Lox.Proofs.Source.Joined
import Lox.Proofs.Source.Stray

namespace Lox.Source

-- A scan whose text has so many lines before it.
def Scan.lowered (lines : Int) (s : Scan) : Scan :=
  ⟨s.tokens.map (·.relined (Token.lineAfter lines)),
    s.errors.map fun e => { e with line := e.line + lines }⟩

-- One scan behind another. Only the end of the last one is an end.
def Scan.followedBy (s other : Scan) : Scan :=
  ⟨s.tokens.filter (·.kind ≠ .eof) ++ other.tokens, s.errors ++ other.errors⟩

theorem collect_after (lines line : Int) (ps : List Piece) :
    collect (line + lines) ps = (collect line ps).lowered lines := by
  have htokens : (collect (line + lines) ps).tokens =
      (collect line ps).tokens.map (·.relined (Token.lineAfter lines)) := by
    have hend : line + lines + feeds ps = line + feeds ps + lines := by omega
    rw [tokens_collect, tokens_collect, words_after, hend, List.map_append]
    rfl
  have herrors := errors_after lines line ps
  rw [Scan.lowered, ← htokens, ← herrors]

-- The only token of a text that marks an end is the last one.
theorem filter_tokens_collect (line : Int) (source : List Char) :
    (collect line (pieces source)).tokens.filter (·.kind ≠ .eof) = words line (pieces source) := by
  have hwords : (words line (pieces source)).filter (·.kind ≠ .eof) =
      words line (pieces source) :=
    List.filter_eq_self.2 fun t ht => by simpa using kind_of_mem_words ht
  rw [tokens_collect, List.filter_append, hwords]
  simp

-- Nothing before the end of a line changes what stands behind it, and nothing behind it changes
-- what stands before.
theorem collect_append_line (line : Int) {first : String} (h : Closed first)
    (second : List Char) :
    collect line (pieces (first.toList ++ '\n' :: second)) =
      (collect line (pieces first.toList)).followedBy
        (collect (line + lastLine first) (pieces second)) := by
  have hlast : lastLine first = (first.toList.count '\n' + 1 : Nat) := by
    rw [lastLine]
    omega
  have hend : line + feeds (pieces (first.toList ++ '\n' :: second)) =
      line + lastLine first + feeds (pieces second) := by
    rw [feeds_pieces, feeds_pieces, List.count_append, List.count_cons_self, lastLine]
    omega
  have htokens : (collect line (pieces (first.toList ++ '\n' :: second))).tokens =
      words line (pieces first.toList) ++
        (collect (line + lastLine first) (pieces second)).tokens := by
    rw [tokens_collect, tokens_collect, hend, hlast, gathered_words.append_line line h,
      List.append_assoc]
  have herrors := gathered_errors.append_line line h second
  rw [Scan.followedBy, filter_tokens_collect, ← htokens, hlast, ← herrors]

theorem scan_append_line {first : String} (h : Closed first) (second : String) :
    scan (first ++ "\n" ++ second) =
      (scan first).followedBy ((scan second).lowered (lastLine first)) := by
  have hlist : (first ++ "\n" ++ second).toList = first.toList ++ '\n' :: second.toList := by
    simp
  rw [scan, hlist, collect_append_line 1 h, collect_after]
  rfl

theorem ScanFault.isUnexpected_iff (fault : ScanFault) : fault.isUnexpected = true ↔
    fault ≠ .unterminatedString ∧ fault ≠ .unterminatedComment := by
  cases fault <;> simp [isUnexpected]

-- A text leaves something open exactly if it has an error that says so.
theorem closed_iff {source : String} : Closed source ↔
    ∀ e ∈ (scan source).errors,
      e.fault ≠ .unterminatedString ∧ e.fault ≠ .unterminatedComment := by
  constructor
  · intro h e he
    exact e.fault.isUnexpected_iff.1 (isUnexpected_of_not_open h e he)
  · intro h p hp hopen
    obtain ⟨e, he, hfault⟩ := @error_of_open 1 _ p hp hopen
    exact hfault.elim (h e he).1 (h e he).2

-- What a text leaves open is an error on the line on which the text ends.
theorem line_of_left_open {source : String} {e : ScanError} (he : e ∈ (scan source).errors)
    (hfault : e.fault = .unterminatedString ∨ e.fault = .unterminatedComment) :
    e.line = lastLine source := by
  rw [scan, errors_eq_filterMap, placed_pieces, List.filterMap_map] at he
  obtain ⟨x, hx, hgiven⟩ := List.mem_filterMap.1 he
  dsimp only [Function.comp_apply] at hgiven
  obtain ⟨-, error, herror, hreports⟩ | ⟨-, hnone⟩ := reports_or_silent hx
  · obtain rfl : error = e := Option.some.inj (herror.symm.trans hgiven)
    cases hreports with
    | stray _ hunexpected => simp [hunexpected] at hfault
    | string _ _ _ hline => exact hline
    | comment _ _ _ hline => exact hline
  · cases hnone.symm.trans hgiven

theorem lastLine_append_line (first second : String) :
    lastLine (first ++ "\n" ++ second) = lastLine first + lastLine second := by
  simp only [lastLine, String.toList_append, List.count_append]
  have hfeed : "\n".toList.count '\n' = 1 := rfl
  rw [hfeed]
  omega

-- The end of a line parts a text from whatever follows it if, and only if, the text leaves nothing
-- open: its tokens and errors stay what they are, and those of the other text are further down by
-- the lines that the first one takes up.
theorem scan_append_line_iff (first second : String) :
    scan (first ++ "\n" ++ second) =
        (scan first).followedBy ((scan second).lowered (lastLine first)) ↔
      ∀ e ∈ (scan first).errors,
        e.fault ≠ .unterminatedString ∧ e.fault ≠ .unterminatedComment := by
  rw [← closed_iff]
  refine ⟨fun heq p hp hopen => ?_, fun h => scan_append_line h second⟩
  obtain ⟨e, hfirst, hfault⟩ := @error_of_open 1 _ p hp hopen
  have hboth : e ∈ (scan (first ++ "\n" ++ second)).errors := by
    rw [heq]
    exact List.mem_append_left _ hfirst
  -- the error would stand on the line where the first text ends and on the one where both end
  have hline := (line_of_left_open hfirst hfault).symm.trans (line_of_left_open hboth hfault)
  rw [lastLine_append_line] at hline
  have hlater : 0 < lastLine second := by
    rw [lastLine]
    omega
  omega

-- Without the end of the line the point would belong to the number.
example : scan ("1." ++ "\n" ++ "5 @\n\"") =
    (scan "1.").followedBy ((scan "5 @\n\"").lowered (lastLine "1.")) := by
  decide +kernel

end Lox.Source
