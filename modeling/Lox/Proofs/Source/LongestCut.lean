import Lox.Proofs.Source.Lexeme
import Lox.Proofs.Source.Seam

namespace Lox.Source

section

variable {α : Type} {p : α → Bool} {xs : List α}

-- Some characters of a class are the whole run at the start of a text, or the run goes on.
theorem eq_takeWhile_or_shorter (h : ∀ x ∈ xs, p x) (more : List α) :
    (xs ++ more).takeWhile p = xs ∨ xs.length < ((xs ++ more).takeWhile p).length := by
  rw [List.takeWhile_append_of_pos h]
  cases more.takeWhile p with
  | nil => exact .inl (List.append_nil xs)
  | cons y ys =>
    right
    simp

theorem takeWhile_of_stop {a : α} (h : ∀ x ∈ xs, p x) (ha : p a = false) (more : List α) :
    (xs ++ a :: more).takeWhile p = xs := by
  rw [takeWhile_append_stop ha, List.takeWhile_eq_self_iff.2 h]

theorem dropWhile_of_stop {a : α} (h : ∀ x ∈ xs, p x) (ha : p a = false) (more : List α) :
    (xs ++ a :: more).dropWhile p = a :: more := by
  rw [dropWhile_append_stop ha, List.dropWhile_eq_nil_iff.2 h, List.nil_append]

end

theorem forall_ne_of_notMem {a : Char} {body : List Char} (h : a ∉ body) :
    ∀ d ∈ body, decide (d ≠ a) = true :=
  fun _ hd => decide_eq_true (ne_of_mem_of_not_mem hd h)

-- Operators are cut off in three ways.
theorem operator_forms : ∀ pair ∈ operators,
    (∃ c, pair.1.toList = [c] ∧ (punctuation? c = some pair.2 ∨
      (∃ withEqual, comparison? c = some (pair.2, withEqual)) ∨ c = '/' ∧ pair.2 = .slash)) ∨
    ∃ c alone, pair.1.toList = [c, '='] ∧ comparison? c = some (alone, pair.2) := by
  simp [operators, punctuation?, comparison?]

theorem lexeme_of_operator {text : List Char} {kind : TokenKind}
    (h : (String.ofList text, kind) ∈ operators) : Lexeme (.token kind) text := by
  simpa using Lexeme.operator h

theorem punctuation_mem {c : Char} {kind : TokenKind} (h : punctuation? c = some kind) :
    (String.ofList [c], kind) ∈ operators := by
  unfold punctuation? at h
  split at h <;> cases h <;> decide

theorem comparison_mem {c : Char} {alone withEqual : TokenKind}
    (h : comparison? c = some (alone, withEqual)) :
    (String.ofList [c], alone) ∈ operators ∧ (String.ofList [c, '='], withEqual) ∈ operators := by
  unfold comparison? at h
  split at h <;> cases h <;> decide

theorem punctuation_of_comparison {c : Char} {kinds : TokenKind × TokenKind}
    (h : comparison? c = some kinds) : punctuation? c = none := by
  unfold comparison? at h
  split at h <;> cases h <;> rfl

theorem wordKind_of_mem {word : String} {kind : TokenKind} (h : (word, kind) ∈ reservedWords) :
    wordKind word = kind ∧ Word word.toList := by
  have hkinds : ∀ pair ∈ reservedWords, wordKind pair.1 = pair.2 := by decide
  have hwords : ∀ pair ∈ reservedWords, Word pair.1.toList := by
    simp [reservedWords, Word, isWordPart, isWordStart]
  exact ⟨hkinds _ h, hwords _ h⟩

-- A word that is not reserved is an identifier, and only the reserved ones are anything else.
theorem wordKind_cases (word : String) :
    (word, wordKind word) ∈ reservedWords ∨
      wordKind word = .identifier ∧ ∀ pair ∈ reservedWords, pair.1 ≠ word := by
  unfold wordKind
  cases hkind : reservedWords.lookup word with
  | some kind =>
    obtain ⟨before, after, hsplit, -⟩ := List.lookup_eq_some_iff.1 hkind
    left
    simp [hsplit]
  | none =>
    right
    refine ⟨rfl, ?_⟩
    rintro pair hpair rfl
    simpa using List.lookup_eq_none_iff.1 hkind pair hpair

-- A character of a word begins nothing but words and numbers.
theorem lead_of_wordPart {c : Char} (h : isWordPart c) :
    punctuation? c = none ∧ comparison? c = none ∧ c ≠ '/' ∧ isBlank c = false ∧ c ≠ '"' := by
  have hne (d : Char) (hd : isWordPart d = false) : c ≠ d := by
    rintro rfl
    simp [hd] at h
  have hblank : isBlank c = false := by
    simp [isBlank, hne ' ' (by decide), hne '\t' (by decide), hne '\r' (by decide),
      hne '\n' (by decide)]
  refine ⟨?_, ?_, hne '/' (by decide), hblank, hne '"' (by decide)⟩
  · unfold punctuation?
    split
    all_goals first | rfl | exact absurd h (by decide)
  · unfold comparison?
    split
    all_goals first | rfl | exact absurd h (by decide)

theorem not_isDigit_of_wordStart {c : Char} (h : isWordStart c) : Number.isDigit c = false := by
  rw [Bool.eq_false_iff]
  intro hdigit
  simp only [isWordStart, Number.isDigit, Bool.or_eq_true, Bool.and_eq_true,
    decide_eq_true_eq] at h hdigit
  obtain (⟨ha, -⟩ | ⟨ha, -⟩) | rfl := h
  · exact absurd (Char.le_trans ha hdigit.2) (by decide)
  · exact absurd (Char.le_trans ha hdigit.2) (by decide)
  · exact absurd hdigit.2 (by decide)

theorem cut_digit {c : Char} (h : Number.isDigit c) (rest : List Char) :
    cut c rest = cutNumber c rest := by
  have hpart : isWordPart c := by simp [isWordPart, h]
  obtain ⟨hpunctuation, hcomparison, hslash, hblank, hquote⟩ := lead_of_wordPart hpart
  simp [cut, hpunctuation, hcomparison, hslash, hblank, hquote, h]

theorem cut_wordStart {c : Char} (h : isWordStart c) (rest : List Char) :
    cut c rest = cutWord c rest := by
  have hpart : isWordPart c := by simp [isWordPart, h]
  obtain ⟨hpunctuation, hcomparison, hslash, hblank, hquote⟩ := lead_of_wordPart hpart
  simp [cut, hpunctuation, hcomparison, hslash, hblank, hquote, not_isDigit_of_wordStart h, h]

theorem cut_blank {c : Char} (h : c ∈ [' ', '\t', '\r', '\n']) (rest : List Char) :
    cut c rest = (⟨.blank, [c]⟩, rest) := by
  simp only [List.mem_cons, List.not_mem_nil, or_false] at h
  obtain rfl | rfl | rfl | rfl := h <;> rfl

-- The piece is this lexeme, or longer than it.
def Piece.Covers (p : Piece) (kind : PieceKind) (text : List Char) : Prop :=
  p = ⟨kind, text⟩ ∨ text.length < p.text.length

section

variable {c : Char} {text more rest : List Char}

theorem slash_covers (rest : List Char) : (cutSlash rest).1.Covers (.token .slash) ['/'] := by
  unfold cutSlash
  split
  · right
    simp
  · split
    · right
      simp
    · right
      simp
  · exact .inl rfl

theorem operator_covers {spelling : String} {kind : TokenKind}
    (h : (spelling, kind) ∈ operators) (hsource : spelling.toList ++ more = c :: rest) :
    (cut c rest).1.Covers (.token kind) spelling.toList := by
  obtain ⟨d, hd, hlead⟩ | ⟨d, alone, hd, hlead⟩ := operator_forms _ h <;> dsimp only at hd hlead
  · rw [hd] at hsource ⊢
    obtain ⟨rfl, rfl⟩ := List.cons.inj hsource
    obtain hlead | ⟨withEqual, hlead⟩ | ⟨rfl, rfl⟩ := hlead
    · left
      simp [cut, hlead]
    · simp only [cut, punctuation_of_comparison hlead, hlead]
      split
      · right
        simp
      · exact .inl rfl
    · exact slash_covers _
  · rw [hd] at hsource ⊢
    obtain ⟨rfl, rfl⟩ := List.cons.inj hsource
    left
    simp [cut, punctuation_of_comparison hlead, hlead]

theorem whole_covers (h : Digits text) (hsource : text ++ more = c :: rest) :
    (cut c rest).1.Covers (.token .number) text := by
  obtain ⟨hne, hdigits⟩ := h
  cases text with
  | nil => exact absurd rfl hne
  | cons d digits =>
    simp only [List.cons_append, List.cons.injEq] at hsource
    obtain ⟨rfl, rfl⟩ := hsource
    obtain ⟨hd, hdigits⟩ := List.forall_mem_cons.1 hdigits
    have hrun := eq_takeWhile_or_shorter hdigits more
    rw [cut_digit hd, cutNumber]
    split
    · split
      · have hle : digits.length ≤ ((digits ++ more).takeWhile Number.isDigit).length := by
          obtain heq | hlt := hrun
          · rw [heq]
          · exact hlt.le
        right
        simp only [List.length_append, List.length_cons]
        omega
      · simpa [Piece.Covers] using hrun
    · simpa [Piece.Covers] using hrun

theorem decimal_covers {whole fraction : List Char} (hwhole : Digits whole)
    (hfraction : Digits fraction) (hsource : whole ++ '.' :: fraction ++ more = c :: rest) :
    (cut c rest).1.Covers (.token .number) (whole ++ '.' :: fraction) := by
  match whole, fraction, hwhole, hfraction, hsource with
  | d :: whole, f :: fraction, ⟨_, hwhole⟩, ⟨_, hfraction⟩, hsource =>
    simp only [List.cons_append, List.append_assoc, List.cons.injEq] at hsource
    obtain ⟨rfl, rfl⟩ := hsource
    obtain ⟨hd, hwhole⟩ := List.forall_mem_cons.1 hwhole
    obtain ⟨hf, hfraction⟩ := List.forall_mem_cons.1 hfraction
    have hpoint : Number.isDigit '.' = false := by decide
    have hrun := eq_takeWhile_or_shorter hfraction more
    rw [cut_digit hd, cutNumber, takeWhile_of_stop hwhole hpoint, dropWhile_of_stop hwhole hpoint]
    simpa [Piece.Covers, hf] using hrun

theorem word_covers (h : Word text) (hsource : text ++ more = c :: rest) :
    (cut c rest).1.Covers (.token (wordKind (String.ofList text))) text := by
  match text, h, hsource with
  | d :: text, ⟨hd, htext⟩, hsource =>
    simp only [List.cons_append, List.cons.injEq] at hsource
    obtain ⟨rfl, rfl⟩ := hsource
    obtain hrun | hrun := eq_takeWhile_or_shorter htext more
    · left
      rw [cut_wordStart hd, cutWord, hrun]
    · right
      simpa [cut_wordStart hd, cutWord] using hrun

theorem string_covers {body : List Char} (h : '"' ∉ body)
    (hsource : '"' :: (body ++ ['"']) ++ more = c :: rest) :
    (cut c rest).1.Covers (.token .string) ('"' :: (body ++ ['"'])) := by
  simp only [List.cons_append, List.append_assoc, List.nil_append, List.cons.injEq] at hsource
  obtain ⟨rfl, rfl⟩ := hsource
  have hbody := forall_ne_of_notMem h
  have hcut : cut '"' (body ++ '"' :: more) = cutQuote (body ++ '"' :: more) := rfl
  left
  rw [hcut, cutQuote, takeWhile_of_stop hbody (by decide), dropWhile_of_stop hbody (by decide)]

theorem lineComment_covers {body : List Char} (h : '\n' ∉ body)
    (hsource : '/' :: '/' :: body ++ more = c :: rest) :
    (cut c rest).1.Covers .comment ('/' :: '/' :: body) := by
  simp only [List.cons_append, List.cons.injEq] at hsource
  obtain ⟨rfl, rfl⟩ := hsource
  have hbody := forall_ne_of_notMem h
  have hcut : (cut '/' ('/' :: (body ++ more))).1 =
      ⟨.comment, '/' :: '/' :: (body ++ more).takeWhile (· ≠ '\n')⟩ := rfl
  obtain hrun | hrun := eq_takeWhile_or_shorter hbody more
  · left
    rw [hcut, hrun]
  · right
    simpa [hcut] using hrun

theorem blockComment_covers (h : BlockComment text) (hsource : text ++ more = c :: rest) :
    (cut c rest).1.Covers .comment text := by
  obtain ⟨body, rfl, hcloses⟩ := blockComment_iff.1 h
  obtain ⟨rfl, rfl⟩ := List.cons.inj hsource
  have hcut : cutComment 1 (body ++ more) = some (body, more) :=
    cutComment_eq_some_iff.2 ⟨rfl, hcloses⟩
  left
  simp [cut, punctuation?, comparison?, cutSlash, hcut]

end

-- Nothing that can stand at the start of a text is longer than what is cut off there, and
-- nothing else is as long.
theorem Lexeme.covered {kind : PieceKind} {text rest : List Char} {c : Char}
    (h : Lexeme kind text) (hfront : text <+: c :: rest) : (cut c rest).1.Covers kind text := by
  obtain ⟨more, hsource⟩ := hfront
  cases h with
  | operator hmem => exact operator_covers hmem hsource
  | whole hdigits => exact whole_covers hdigits hsource
  | decimal hwhole hfraction => exact decimal_covers hwhole hfraction hsource
  | reserved hmem =>
    obtain ⟨hkind, hword⟩ := wordKind_of_mem hmem
    simpa [hkind] using word_covers hword hsource
  | name hword hfree =>
    have hcovers := word_covers hword hsource
    obtain hmem | ⟨hkind, -⟩ := wordKind_cases (String.ofList text)
    · exact absurd String.toList_ofList (hfree _ hmem)
    · rwa [hkind] at hcovers
  | string hbody => exact string_covers hbody hsource
  | blank hblank =>
    obtain ⟨rfl, rfl⟩ := List.cons.inj hsource
    rw [cut_blank hblank]
    exact .inl rfl
  | lineComment hbody => exact lineComment_covers hbody hsource
  | blockComment hcomment => exact blockComment_covers hcomment hsource

-- A comment that nothing ends is one of which no part is a whole comment.
theorem cutComment_eq_none_iff {rest : List Char} :
    cutComment 1 rest = none ↔
      ∀ text, text <+: '/' :: '*' :: rest → ¬ BlockComment text := by
  constructor
  · intro h text hfront hcomment
    obtain ⟨body, rfl, hcloses⟩ := blockComment_iff.1 hcomment
    obtain ⟨more, hmore⟩ := hfront
    simp only [List.cons_append, List.cons.injEq, true_and] at hmore
    simp [cutComment_eq_some_iff.2 ⟨hmore.symm, hcloses⟩] at h
  · intro h
    rw [Option.eq_none_iff_forall_ne_some]
    rintro ⟨text, more⟩ hcut
    obtain ⟨rfl, hcloses⟩ := cutComment_eq_some_iff.1 hcut
    exact h ('/' :: '*' :: text) ⟨more, rfl⟩ (blockComment_iff.2 ⟨text, rfl, hcloses⟩)

theorem Unended.cut_eq {kind : PieceKind} {c : Char} {rest : List Char}
    (h : Unended kind (c :: rest)) : (cut c rest).1 = ⟨kind, c :: rest⟩ := by
  cases h with
  | comment hopening hnone =>
    obtain ⟨after, hafter⟩ := hopening
    simp only [List.cons_append, List.nil_append, List.cons.injEq] at hafter
    obtain ⟨rfl, rfl⟩ := hafter
    simp [cut, punctuation?, comparison?, cutSlash, cutComment_eq_none_iff.2 hnone]
  | string hbody =>
    have hrest := forall_ne_of_notMem hbody
    have hcut : cut '"' rest = cutQuote rest := rfl
    rw [hcut, cutQuote, List.takeWhile_eq_self_iff.2 hrest, List.dropWhile_eq_nil_iff.2 hrest]

-- What is cut off a text.
inductive Cuts (source : List Char) : Piece → Prop
  | lexeme {p : Piece} : Lexeme p.kind p.text → Cuts source p
  | unended {kind : PieceKind} : Unended kind source → Cuts source ⟨kind, source⟩
  | stray {c : Char} {rest : List Char} : source = c :: rest → Cuts source ⟨.stray, [c]⟩

theorem cuts_slash (rest : List Char) : Cuts ('/' :: rest) (cutSlash rest).1 := by
  unfold cutSlash
  split
  · next rest =>
    refine .lexeme (.lineComment fun hmem => ?_)
    simpa using List.mem_takeWhile_imp hmem
  · next rest =>
    split
    · next text after hcut =>
      obtain ⟨-, hcloses⟩ := cutComment_eq_some_iff.1 hcut
      exact .lexeme (.blockComment (blockComment_iff.2 ⟨text, rfl, hcloses⟩))
    · next hcut =>
      exact .unended (.comment (by simp) (cutComment_eq_none_iff.1 hcut))
  · have hslash : (String.ofList ['/'], .slash) ∈ operators := by decide
    exact .lexeme (lexeme_of_operator hslash)

theorem cuts_quote (rest : List Char) : Cuts ('"' :: rest) (cutQuote rest).1 := by
  have hbody : '"' ∉ rest.takeWhile (· ≠ '"') := fun hmem => by
    simpa using List.mem_takeWhile_imp hmem
  unfold cutQuote
  dsimp only
  split
  · next hdrop =>
    have hall := List.dropWhile_eq_nil_iff.1 hdrop
    rw [List.takeWhile_eq_self_iff.2 hall] at hbody ⊢
    exact .unended (.string hbody)
  · next quote after hdrop =>
    obtain rfl := eq_of_dropWhile_ne hdrop
    exact .lexeme (.string hbody)

theorem lexeme_number {c : Char} (hc : Number.isDigit c) (rest : List Char) :
    Lexeme (cutNumber c rest).1.kind (cutNumber c rest).1.text := by
  have hwhole : Digits (c :: rest.takeWhile Number.isDigit) :=
    ⟨by simp, List.forall_mem_cons.2 ⟨hc, fun _ => List.mem_takeWhile_imp⟩⟩
  unfold cutNumber
  split
  · next d after _ =>
    split
    · next hd =>
      exact .decimal hwhole ⟨by simp, List.forall_mem_cons.2 ⟨hd, fun _ => List.mem_takeWhile_imp⟩⟩
    · exact .whole hwhole
  · exact .whole hwhole

theorem lexeme_word {c : Char} (hc : isWordStart c) (rest : List Char) :
    Lexeme (cutWord c rest).1.kind (cutWord c rest).1.text := by
  have hword : Word (c :: rest.takeWhile isWordPart) := ⟨hc, fun _ => List.mem_takeWhile_imp⟩
  rw [cutWord]
  obtain hmem | ⟨hkind, hfree⟩ := wordKind_cases (String.ofList (c :: rest.takeWhile isWordPart))
  · simpa using Lexeme.reserved hmem
  · dsimp only
    rw [hkind]
    refine .name hword fun pair hpair htext => hfree pair hpair ?_
    rw [← htext, String.ofList_toList]

theorem cuts_cut (c : Char) (rest : List Char) : Cuts (c :: rest) (cut c rest).1 := by
  unfold cut
  split
  · next kind hkind =>
    exact .lexeme (lexeme_of_operator (punctuation_mem hkind))
  split
  · next alone withEqual hkinds =>
    obtain ⟨halone, hequal⟩ := comparison_mem hkinds
    split
    · exact .lexeme (lexeme_of_operator hequal)
    · exact .lexeme (lexeme_of_operator halone)
  split
  · next hslash =>
    subst hslash
    exact cuts_slash rest
  split
  · next hblank =>
    exact .lexeme (.blank (by simpa [isBlank, or_assoc] using hblank))
  split
  · next hquote =>
    subst hquote
    exact cuts_quote rest
  split
  · next hdigit => exact .lexeme (lexeme_number hdigit rest)
  split
  · next hstart => exact .lexeme (lexeme_word hstart rest)
  · exact .stray rfl

theorem Cuts.lexeme_of_token {source : List Char} {p : Piece} {kind : TokenKind}
    (h : Cuts source p) (hkind : p.kind = .token kind) : Lexeme (.token kind) p.text := by
  cases h with
  | lexeme h => rwa [hkind] at h
  | unended h => cases h <;> cases hkind
  | stray => cases hkind

theorem cuts_of_mem_pieces {source : List Char} {p : Piece} (h : p ∈ pieces source) :
    ∃ rest, Cuts rest p := by
  fun_induction pieces source with
  | case1 => simp at h
  | case2 c rest ih =>
    obtain rfl | h := List.mem_cons.1 h
    · exact ⟨_, cuts_cut c rest⟩
    · exact ih h

end Lox.Source
