import Lox.Proofs.Run.Marked
import Lox.Proofs.Session.Reachable
import Lox.Proofs.Source.Joined
import Lox.Proofs.Syntax.Follows
import Lox.Proofs.Syntax.Parsed

namespace Lox

open Source

-- Texts with so many empty lines before each.
def padded (gap : Nat → Nat) (sources : List String) : List String :=
  sources.mapIdx fun j => lowered (gap j)

theorem getElem_padded {gap : Nat → Nat} {sources : List String} {j : Nat}
    (hj : j < (padded gap sources).length) (hs : j < sources.length) :
    (padded gap sources)[j] = lowered (gap j) sources[j] := by
  simp [padded]

theorem padded_zero (sources : List String) : padded (fun _ => 0) sources = sources := by
  apply List.ext_getElem
  · simp [padded]
  · intro i hi _
    simp [padded, lowered_zero]

-- By how many lines the tokens of one of the texts, or those that were there before, are further
-- down among the others, with so many empty lines before each text.
def linesDown (gap : Nat → Nat) (sources : List String) : Option Nat → Int
  | none => 0
  | some j => linesBefore (padded gap sources) j + gap j

namespace Source

-- The tokens of a text without the one that marks its end.
def wordsOf (source : String) : List Token :=
  words 1 (pieces source.toList)

theorem unmarked_scan (source : String) :
    Syntax.unmarked (scan source).tokens = wordsOf source := by
  rw [scan, tokens_collect]
  exact Syntax.unmarked_append [] (fun t ht => kind_of_mem_words ht) rfl

theorem closed_padded {sources : List String} (h : ∀ source ∈ sources, Closed source)
    (gap : Nat → Nat) : ∀ text ∈ padded gap sources, Closed text := by
  intro text htext
  obtain ⟨j, hj, rfl⟩ := List.mem_mapIdx.1 htext
  exact (h sources[j] (List.getElem_mem hj)).lowered (gap j)

-- The tokens of all texts together are those of each, further down.
theorem wordsOf_joined {sources : List String} (h : ∀ source ∈ sources, Closed source)
    (gap : Nat → Nat) :
    wordsOf ("\n".intercalate (padded gap sources)) =
      (sources.mapIdx fun j source => (wordsOf source).map
        (·.relined (Token.lineAfter (linesDown gap sources (some j))))).flatten := by
  rw [wordsOf, gathered_words.joined 1 (closed_padded h gap)]
  congr 1
  apply List.ext_getElem
  · simp [padded]
  · intro j hj _
    have hs : j < sources.length := by simpa [padded] using hj
    have hline : 1 + (linesBefore (padded gap sources) j : Int) + gap j =
        1 + linesDown gap sources (some j) := by
      rw [linesDown]
      omega
    rw [List.getElem_mapIdx, List.getElem_mapIdx, getElem_padded _ hs, gathered_words.lowered,
      hline, words_after]
    rfl

theorem scan_joined_errors {sources : List String}
    (h : ∀ source ∈ sources, (scan source).errors = []) (gap : Nat → Nat) :
    (scan ("\n".intercalate (padded gap sources))).errors = [] := by
  have hclosed : ∀ source ∈ sources, Closed source := fun source hs => closed_of_scan (h source hs)
  rw [scan, gathered_errors.joined 1 (closed_padded hclosed gap)]
  refine List.flatten_eq_nil_iff.2 fun errors herrors => ?_
  obtain ⟨j, hj, rfl⟩ := List.mem_mapIdx.1 herrors
  have hj' : j < sources.length := by simpa [padded] using hj
  have hnone : (collect 1 (pieces sources[j].toList)).errors = [] :=
    h sources[j] (List.getElem_mem hj')
  rw [getElem_padded hj hj', gathered_errors.lowered, Int.add_assoc, errors_after, hnone]
  rfl

end Source

-- The tokens of an accepted text stand for its statements on whatever lines they are.
theorem Accepted.reads {source : String} (h : Accepted source) (f : Token → Int) :
    ∃ body, Syntax.ReadsProgram body ((wordsOf source).map (·.relined f)) ∧
      body.map Syntax.Span.tree = Stmt.allRelined f (statementsOf source) := by
  have hend : ∃ t ∈ (Source.scan source).tokens, t.kind = .eof := by
    rw [Source.scan, tokens_collect]
    exact ⟨_, List.mem_append_right _ (List.mem_singleton_self _), rfl⟩
  have hparse := Syntax.parse_relined f hend
  rw [h.parse] at hparse
  obtain ⟨body, hbody, htree⟩ := Syntax.parse_sound (congrArg Syntax.Program.errors hparse)
  have hwords : Syntax.unmarked ((Source.scan source).tokens.map (·.relined f)) =
      (wordsOf source).map (·.relined f) := by
    rw [← unmarked_scan]
    exact List.takeWhile_map ..
  rw [hwords] at hbody
  rw [hparse] at htree
  exact ⟨body, hbody, htree.symm⟩

-- Programs that follow each other are read as one.
theorem reads_flatten {sources : List String} (h : ∀ source ∈ sources, Accepted source)
    (lines : Option Nat → Int) :
    ∃ body, Syntax.ReadsProgram body (sources.mapIdx fun j source =>
        (wordsOf source).map (·.relined (Token.lineAfter (lines (some j))))).flatten ∧
      body.map Syntax.Span.tree = (Run.movedBy lines (sources.map statementsOf)).flatten := by
  induction sources generalizing lines with
  | nil => exact ⟨[], ⟨rfl, rfl, by simp⟩, rfl⟩
  | cons source sources ih =>
    obtain ⟨hfirst, hrest⟩ := List.forall_mem_cons.1 h
    obtain ⟨body, hbody, htree⟩ := hfirst.reads (Token.lineAfter (lines (some 0)))
    obtain ⟨others, hothers, htrees⟩ := ih hrest fun origin => lines (origin.map (· + 1))
    refine ⟨body ++ others, ⟨?_, ?_, ?_⟩, ?_⟩
    · rw [List.mapIdx_cons, List.flatten_cons, List.flatMap_append, ← hbody.tokens,
        ← hothers.tokens]
      rfl
    · rw [List.flatMap_append, hbody.clean, hothers.clean]
      rfl
    · intro s hs
      exact (List.mem_append.1 hs).elim (hbody.declarations s) (hothers.declarations s)
    · rw [List.map_append, htree, htrees, List.map_cons]
      simp [Run.movedBy, List.mapIdx_cons]

-- Accepted texts are accepted together, and their statements are those of each, further down.
theorem accepted_joined {sources : List String} (h : ∀ source ∈ sources, Accepted source)
    (gap : Nat → Nat) :
    Accepted ("\n".intercalate (padded gap sources)) ∧
      statementsOf ("\n".intercalate (padded gap sources)) =
        (Run.movedBy (linesDown gap sources) (sources.map statementsOf)).flatten := by
  obtain ⟨body, hbody, htree⟩ := reads_flatten h (linesDown gap sources)
  rw [← wordsOf_joined (fun source hs => closed_of_scan (h source hs).scan) gap,
    ← unmarked_scan] at hbody
  have hparse := Syntax.parse_complete hbody
  refine ⟨⟨scan_joined_errors (fun source hs => (h source hs).scan) gap, ?_⟩, ?_⟩
  · rw [hparse]
  · rw [statementsOf, hparse]
    exact htree

end Lox
