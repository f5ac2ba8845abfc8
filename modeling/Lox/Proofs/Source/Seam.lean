import Lox.Source.Piece

namespace Lox.Source

-- A piece that runs to the end of the text because nothing ends it.
def Piece.Open (p : Piece) : Prop :=
  p.kind = .openString ∨ p.kind = .openComment

section

variable {α : Type} {p : α → Bool} {a : α}

-- A run of characters does not go on behind one that is not of its class.
theorem takeWhile_append_stop (ha : p a = false) (xs ys : List α) :
    (xs ++ a :: ys).takeWhile p = xs.takeWhile p := by
  induction xs with
  | nil => simp [ha]
  | cons x xs ih => simp [List.takeWhile_cons, ih]

theorem dropWhile_append_stop (ha : p a = false) (xs ys : List α) :
    (xs ++ a :: ys).dropWhile p = xs.dropWhile p ++ a :: ys := by
  induction xs with
  | nil => simp [ha]
  | cons x xs ih =>
    rw [List.cons_append, List.dropWhile_cons, List.dropWhile_cons, ih]
    split <;> rfl

-- Where a run ends before the end of the text, nothing after the text matters.
theorem takeWhile_append_of_dropWhile_ne_nil {xs : List α} (h : xs.dropWhile p ≠ [])
    (ys : List α) : (xs ++ ys).takeWhile p = xs.takeWhile p := by
  induction xs with
  | nil => simp at h
  | cons x xs ih =>
    by_cases hx : p x = true
    · rw [List.dropWhile_cons_of_pos hx] at h
      simp [hx, ih h]
    · simp [hx]

theorem dropWhile_append_of_dropWhile_ne_nil {xs : List α} (h : xs.dropWhile p ≠ [])
    (ys : List α) : (xs ++ ys).dropWhile p = xs.dropWhile p ++ ys := by
  induction xs with
  | nil => simp at h
  | cons x xs ih =>
    by_cases hx : p x = true
    · rw [List.dropWhile_cons_of_pos hx] at h
      rw [List.cons_append, List.dropWhile_cons_of_pos hx, List.dropWhile_cons_of_pos hx, ih h]
    · rw [List.cons_append, List.dropWhile_cons_of_neg hx, List.dropWhile_cons_of_neg hx]
      rfl

-- A run up to a character ends at that character.
theorem eq_of_dropWhile_ne [DecidableEq α] {b : α} {xs ys : List α}
    (h : xs.dropWhile (· ≠ a) = b :: ys) : b = a := by
  have hne : xs.dropWhile (· ≠ a) ≠ [] := by
    rw [h]
    exact List.cons_ne_nil b ys
  have hhead := List.head_dropWhile_not (· ≠ a) hne
  simpa only [h, List.head_cons, decide_eq_false_iff_not, Decidable.not_not, ne_eq] using hhead

end

-- What ends a comment ends it whatever comes after.
theorem cutComment_append {depth : Nat} {source text rest : List Char}
    (h : cutComment depth source = some (text, rest)) (others : List Char) :
    cutComment depth (source ++ others) = some (text, rest ++ others) := by
  fun_induction cutComment depth source generalizing text rest with
  | case1 source =>
    obtain ⟨rfl, rfl⟩ := Prod.mk.inj (Option.some.inj h)
    simp [cutComment]
  | case2 => simp at h
  | case3 depth source ih =>
    obtain ⟨⟨t, r⟩, ht, he⟩ := Option.map_eq_some_iff.1 h
    obtain ⟨rfl, rfl⟩ := Prod.mk.inj he
    simp [cutComment, ih ht]
  | case4 depth source ih =>
    obtain ⟨⟨t, r⟩, ht, he⟩ := Option.map_eq_some_iff.1 h
    obtain ⟨rfl, rfl⟩ := Prod.mk.inj he
    simp [cutComment, ih ht]
  | case5 depth c source hopening hend ih =>
    obtain ⟨⟨t, r⟩, ht, he⟩ := Option.map_eq_some_iff.1 h
    obtain ⟨rfl, rfl⟩ := Prod.mk.inj he
    -- a comment that ends has another character, so no pair of them is torn apart
    cases source with
    | nil => simp [cutComment] at ht
    | cons d source =>
      rw [List.cons_append, List.cons_append, cutComment]
      · rw [← List.cons_append, ih ht]
        rfl
      · rintro after rfl hd
        obtain ⟨rfl, -⟩ := List.cons.inj hd
        exact hopening source rfl rfl
      · rintro after rfl hd
        obtain ⟨rfl, -⟩ := List.cons.inj hd
        exact hend source rfl rfl

-- White space ends numbers and words, and is no second half of a token or of a comment's opening.
theorem apart_of_isBlank {b : Char} (hb : isBlank b = true) :
    (Number.isDigit b = false ∧ isWordPart b = false) ∧ b ≠ '.' ∧ b ≠ '=' ∧ b ≠ '/' ∧ b ≠ '*' := by
  have hchars : b = ' ' ∨ b = '\t' ∨ b = '\r' ∨ b = '\n' := by simpa [isBlank, or_assoc] using hb
  obtain rfl | rfl | rfl | rfl := hchars <;> decide

section

variable {b : Char} (hb : isBlank b = true) (others : List Char)
include hb

theorem cutSlash_append {rest : List Char} (h : ¬ (cutSlash rest).1.Open)
    (hcomment : (cutSlash rest).1.kind = .comment → b = '\n') :
    cutSlash (rest ++ b :: others) = ((cutSlash rest).1, (cutSlash rest).2 ++ b :: others) := by
  obtain ⟨-, -, -, hslash, hstar⟩ := apart_of_isBlank hb
  unfold cutSlash at h hcomment ⊢
  split at h
  · next rest =>
    obtain rfl := hcomment rfl
    simp only [List.cons_append]
    rw [takeWhile_append_stop (by decide), dropWhile_append_stop (by decide)]
  · next rest =>
    split at h
    · next text after hcut => simp [cutComment_append hcut]
    · exact absurd (.inr rfl) h
  · next hnoSlash hnoStar =>
    cases rest with
    | nil => simp [hslash, hstar]
    | cons c rest =>
      simp only [List.cons_append]
      split
      · next hc => exact absurd (congrArg (· :: rest) (List.cons.inj hc).1) (hnoSlash rest)
      · next hc => exact absurd (congrArg (· :: rest) (List.cons.inj hc).1) (hnoStar rest)
      · rfl

omit hb in
theorem cutQuote_append {rest : List Char} (h : ¬ (cutQuote rest).1.Open) :
    cutQuote (rest ++ b :: others) = ((cutQuote rest).1, (cutQuote rest).2 ++ b :: others) := by
  unfold cutQuote at h ⊢
  cases hrest : rest.dropWhile (· ≠ '"') with
  | nil =>
    rw [hrest] at h
    exact absurd (.inl rfl) h
  | cons quote after =>
    have hne : rest.dropWhile (· ≠ '"') ≠ [] := by
      rw [hrest]
      exact List.cons_ne_nil quote after
    rw [takeWhile_append_of_dropWhile_ne_nil hne, dropWhile_append_of_dropWhile_ne_nil hne, hrest]
    rfl

-- A point before white space belongs to no number, just as at the end of the text.
theorem cutNumber_append (c : Char) (rest : List Char) :
    cutNumber c (rest ++ b :: others) =
      ((cutNumber c rest).1, (cutNumber c rest).2 ++ b :: others) := by
  obtain ⟨⟨hdigit, -⟩, hpoint, -⟩ := apart_of_isBlank hb
  unfold cutNumber
  rw [takeWhile_append_stop hdigit, dropWhile_append_stop hdigit]
  generalize rest.dropWhile Number.isDigit = after
  cases after with
  | nil => simp [hpoint]
  | cons x after =>
    by_cases hx : x = '.'
    · subst hx
      cases after with
      | nil => simp [hdigit]
      | cons d after =>
        by_cases hd : Number.isDigit d = true
        · simp only [List.cons_append, hd, if_true]
          rw [takeWhile_append_stop hdigit, dropWhile_append_stop hdigit]
        · simp [hd]
    · simp [hx]

theorem cutWord_append (c : Char) (rest : List Char) :
    cutWord c (rest ++ b :: others) = ((cutWord c rest).1, (cutWord c rest).2 ++ b :: others) := by
  obtain ⟨⟨-, hpart⟩, -⟩ := apart_of_isBlank hb
  rw [cutWord, takeWhile_append_stop hpart, dropWhile_append_stop hpart]
  rfl

-- A piece that ends before white space or at it is the same whether the text ends there or not. A
-- comment can go on behind white space that is not the end of the line.
theorem cut_append {c : Char} {rest : List Char} (h : ¬ (cut c rest).1.Open)
    (hcomment : (cut c rest).1.kind = .comment → b = '\n') :
    cut c (rest ++ b :: others) = ((cut c rest).1, (cut c rest).2 ++ b :: others) := by
  obtain ⟨-, -, hequal, -⟩ := apart_of_isBlank hb
  unfold cut at h hcomment ⊢
  cases hpunctuation : punctuation? c with
  | some kind => rfl
  | none =>
    cases hcomparison : comparison? c with
    | some kinds =>
      cases rest with
      | nil => simp [hequal]
      | cons x rest =>
        by_cases hx : x = '='
        · subst hx
          rfl
        · simp [hx]
    | none =>
      simp only [hpunctuation, hcomparison] at h hcomment ⊢
      split
      · next hc =>
        rw [if_pos hc] at h hcomment
        exact cutSlash_append hb others h hcomment
      · next hc =>
        rw [if_neg hc] at h
        split
        · rfl
        · next hblank =>
          rw [if_neg hblank] at h
          split
          · next hquote =>
            rw [if_pos hquote] at h
            exact cutQuote_append others h
          · split
            · exact cutNumber_append hb others c rest
            · split
              · exact cutWord_append hb others c rest
              · rfl

end

-- A line feed starts the pieces anew, unless what stands before it is still open.
theorem pieces_append {source : List Char} (h : ∀ p ∈ pieces source, ¬ p.Open)
    (others : List Char) :
    pieces (source ++ '\n' :: others) = pieces source ++ ⟨.blank, ['\n']⟩ :: pieces others := by
  fun_induction pieces source with
  | case1 =>
    rw [List.nil_append, pieces]
    rfl
  | case2 c rest ih =>
    rw [List.cons_append, pieces, cut_append rfl others (h _ List.mem_cons_self) fun _ => rfl,
      ih fun p hp => h p (List.mem_cons_of_mem _ hp)]
    rfl

end Lox.Source
