import Lox.Proofs.Source.Lines

namespace Lox.Source

-- A text in which no string and no comment runs to the end because nothing ends it.
def Closed (text : String) : Prop :=
  ∀ p ∈ pieces text.toList, ¬ p.Open

theorem closed_of_scan {text : String} (h : (scan text).errors = []) : Closed text := by
  intro p hp hopen
  obtain ⟨e, he, -⟩ := @error_of_open 1 _ p hp hopen
  exact List.ne_nil_of_mem he h

-- How many lines the first texts of a list take up, each of which starts on a line of its own.
def linesBefore (texts : List String) (j : Nat) : Nat :=
  ((texts.take j).flatMap fun text => text.toList ++ ['\n']).count '\n'

@[simp] theorem linesBefore_zero (texts : List String) : linesBefore texts 0 = 0 := by
  simp [linesBefore]

@[simp] theorem linesBefore_cons (text : String) (texts : List String) (j : Nat) :
    linesBefore (text :: texts) (j + 1) = text.toList.count '\n' + 1 + linesBefore texts j := by
  simp [linesBefore]
  omega

-- The text with so many empty lines before it.
def lowered (gap : Nat) (text : String) : String :=
  String.ofList (List.replicate gap '\n') ++ text

theorem lowered_zero (text : String) : lowered 0 text = text := by
  simp [lowered]

theorem pieces_lowered (gap : Nat) (text : String) :
    pieces (lowered gap text).toList =
      List.replicate gap ⟨.blank, ['\n']⟩ ++ pieces text.toList := by
  induction gap with
  | zero => simp [lowered]
  | succ gap ih =>
    have hlist : (lowered (gap + 1) text).toList = [] ++ '\n' :: (lowered gap text).toList := by
      simp [lowered, List.replicate_succ]
    rw [hlist, pieces_append (by simp [pieces]), ih, List.replicate_succ]
    simp [pieces]

theorem Closed.lowered {text : String} (h : Closed text) (gap : Nat) :
    Closed (lowered gap text) := by
  intro p hp
  rw [pieces_lowered] at hp
  obtain hp | hp := List.mem_append.1 hp
  · obtain ⟨-, rfl⟩ := List.mem_replicate.1 hp
    simp [Piece.Open]
  · exact h p hp

-- What is gathered from consecutive pieces, each on the lines where it stands, with nothing from
-- the ends of lines.
structure Gathered {α : Type} (gather : Int → List Piece → List α) : Prop where
  nil : ∀ line, gather line [] = []
  feed : ∀ line, gather line [⟨.blank, ['\n']⟩] = []
  append : ∀ line ps qs, gather line (ps ++ qs) = gather line ps ++ gather (line + feeds ps) qs

theorem gathered_words : Gathered words where
  nil _ := rfl
  feed _ := by simp [words, Piece.token?]
  append := words_append

theorem gathered_errors : Gathered fun line ps => (collect line ps).errors where
  nil _ := rfl
  feed _ := by simp [collect, Piece.error?]
  append := errors_append

namespace Gathered

variable {α : Type} {gather : Int → List Piece → List α} (hg : Gathered gather)
include hg

theorem cons_feed (line : Int) (ps : List Piece) :
    gather line (⟨.blank, ['\n']⟩ :: ps) = gather (line + 1) ps := by
  have h := hg.append line [⟨.blank, ['\n']⟩] ps
  rw [hg.feed] at h
  simpa [feeds, Piece.lineFeeds] using h

-- Behind the end of a line everything starts anew.
theorem append_line (line : Int) {first : String} (h : Closed first) (rest : List Char) :
    gather line (pieces (first.toList ++ '\n' :: rest)) =
      gather line (pieces first.toList) ++
        gather (line + (first.toList.count '\n' + 1 : Nat)) (pieces rest) := by
  have hline : line + feeds (pieces first.toList) + 1 =
      line + (first.toList.count '\n' + 1 : Nat) := by
    rw [feeds_pieces]
    omega
  rw [pieces_append h, hg.append, hg.cons_feed, hline]

-- Texts on lines of their own give what each gives there.
theorem joined (line : Int) {texts : List String} (h : ∀ text ∈ texts, Closed text) :
    gather line (pieces ("\n".intercalate texts).toList) =
      (texts.mapIdx fun j text =>
        gather (line + linesBefore texts j) (pieces text.toList)).flatten := by
  induction texts generalizing line with
  | nil => simp [pieces, hg.nil]
  | cons text texts ih =>
    obtain ⟨hfirst, hrest⟩ := List.forall_mem_cons.1 h
    by_cases hne : texts = []
    · subst hne
      simp
    · have hlist : ("\n".intercalate (text :: texts)).toList =
          text.toList ++ '\n' :: ("\n".intercalate texts).toList := by
        rw [String.intercalate_cons_of_ne_nil hne]
        simp
      rw [hlist, hg.append_line line hfirst, ih _ hrest, List.mapIdx_cons, List.flatten_cons]
      simp [Int.add_assoc]

theorem lowered (gap : Nat) (line : Int) (text : String) :
    gather line (pieces (lowered gap text).toList) = gather (line + gap) (pieces text.toList) := by
  rw [pieces_lowered]
  induction gap generalizing line with
  | zero => simp
  | succ gap ih =>
    have hline : line + 1 + gap = line + (gap + 1 : Nat) := by omega
    rw [List.replicate_succ, List.cons_append, hg.cons_feed, ih, hline]

end Gathered

end Lox.Source
