import Lox.Proofs.Source.Extent

namespace Lox.Source

def ScanFault.isUnexpected : ScanFault → Bool
  | .unexpected _ => true
  | _ => false

-- A space in place of a character that belongs to no program.
def Piece.blanked (p : Piece) : Piece :=
  if p.kind = .stray then ⟨.blank, [' ']⟩ else p

-- The text with a space in place of every character that is reported as unexpected.
def cleared (source : String) : String :=
  String.ofList ((pieces source.toList).flatMap (·.blanked.text))

-- A character that begins nothing a program is made of.
structure Stray (c : Char) : Prop where
  punctuation : punctuation? c = none
  comparison : comparison? c = none
  slash : c ≠ '/'
  blank : isBlank c = false
  quote : c ≠ '"'
  digit : Number.isDigit c = false
  wordStart : isWordStart c = false

-- The same text, but for spaces in place of some characters that begin nothing.
def Faded : List Char → List Char → Prop :=
  List.Forall₂ fun c d => d = c ∨ Stray c ∧ d = ' '

section

variable {c : Char} {rest after after' : List Char}

theorem Stray.cut_eq (h : Stray c) (rest : List Char) : cut c rest = (⟨.stray, [c]⟩, rest) := by
  simp [cut, h.punctuation, h.comparison, h.slash, h.blank, h.quote, h.digit, h.wordStart]

theorem kind_cutSlash (rest : List Char) : (cutSlash rest).1.kind = .token .slash ∨
    (cutSlash rest).1.kind = .comment ∨ (cutSlash rest).1.kind = .openComment := by
  unfold cutSlash
  repeat' split
  all_goals simp

theorem kind_cutQuote (rest : List Char) : (cutQuote rest).1.kind ≠ .stray := by
  unfold cutQuote
  dsimp only
  split <;> simp

theorem kind_cutNumber (c : Char) (rest : List Char) : (cutNumber c rest).1.kind ≠ .stray := by
  unfold cutNumber
  repeat' split
  all_goals simp

theorem stray_of_kind_cut (h : (cut c rest).1.kind = .stray) : Stray c := by
  unfold cut at h
  split at h
  · cases h
  next hpunctuation =>
  split at h
  · split at h <;> cases h
  next hcomparison =>
  split at h
  · obtain hkind | hkind | hkind := kind_cutSlash rest <;> cases hkind.symm.trans h
  next hslash =>
  split at h
  · cases h
  next hblank =>
  split at h
  · exact absurd h (kind_cutQuote rest)
  next hquote =>
  split at h
  · exact absurd h (kind_cutNumber c rest)
  next hdigit =>
  split at h
  · cases h
  next hstart =>
  exact ⟨hpunctuation, hcomparison, hslash, Bool.eq_false_iff.2 hblank, hquote,
    Bool.eq_false_iff.2 hdigit, Bool.eq_false_iff.2 hstart⟩

theorem Stray.wordPart (h : Stray c) : isWordPart c = false := by
  simp [isWordPart, h.wordStart, h.digit]

theorem Faded.refl (text : List Char) : Faded text text :=
  List.forall₂_same.2 fun _ _ => .inl rfl

theorem Faded.append {xs ys xs' ys' : List Char} (h : Faded xs xs') (h' : Faded ys ys') :
    Faded (xs ++ ys) (xs' ++ ys') :=
  List.rel_append h h'

-- Where neither a space nor a character that begins nothing is of a class, its runs are the same.
theorem Faded.run {p : Char → Bool} (hstray : ∀ c, Stray c → p c = false) (hspace : p ' ' = false)
    {xs ys : List Char} (h : Faded xs ys) :
    ys.takeWhile p = xs.takeWhile p ∧ Faded (xs.dropWhile p) (ys.dropWhile p) := by
  induction h with
  | nil => exact ⟨rfl, .nil⟩
  | @cons c d xs ys hc h ih =>
    obtain rfl | ⟨hc', rfl⟩ := hc
    · by_cases hd : p d = true
      · simpa [hd] using ih
      · simp only [List.takeWhile_cons_of_neg hd, List.dropWhile_cons_of_neg hd, true_and]
        exact .cons (.inl rfl) h
    · have hnot : ¬ p c = true := by simp [hstray c hc']
      have hnot' : ¬ p ' ' = true := by simp [hspace]
      rw [List.takeWhile_cons_of_neg hnot, List.takeWhile_cons_of_neg hnot',
        List.dropWhile_cons_of_neg hnot, List.dropWhile_cons_of_neg hnot']
      exact ⟨rfl, .cons (.inr ⟨hc', rfl⟩) h⟩

theorem cutSlash_eq_slash {x : Char} (hslash : x ≠ '/') (hstar : x ≠ '*') (xs : List Char) :
    cutSlash (x :: xs) = (⟨.token .slash, ['/']⟩, x :: xs) := by
  unfold cutSlash
  split
  · next h => exact absurd (List.cons.inj h).1 hslash
  · next h => exact absurd (List.cons.inj h).1 hstar
  · rfl

theorem Faded.slash {rest' : List Char} (h : Faded rest rest')
    (hkind : (cutSlash rest).1.kind = .token .slash) :
    (cutSlash rest').1 = (cutSlash rest).1 := by
  cases h with
  | nil => rfl
  | @cons x y xs ys hx h =>
    have hslash : x ≠ '/' := by
      rintro rfl
      cases hkind
    have hstar : x ≠ '*' := by
      rintro rfl
      simp only [cutSlash] at hkind
      split at hkind <;> cases hkind
    rw [cutSlash_eq_slash hslash hstar]
    obtain rfl | ⟨-, rfl⟩ := hx
    · rw [cutSlash_eq_slash hslash hstar]
    · rfl

theorem Faded.digits {xs ys : List Char} (h : Faded xs ys) :
    ys.takeWhile Number.isDigit = xs.takeWhile Number.isDigit ∧
      Faded (xs.dropWhile Number.isDigit) (ys.dropWhile Number.isDigit) :=
  h.run (fun _ => Stray.digit) (by decide)

-- A point that no digit follows belongs to no number, whatever else follows it.
theorem Faded.number {rest' : List Char} (h : Faded rest rest') :
    (cutNumber c rest').1 = (cutNumber c rest).1 := by
  obtain ⟨htake, hdrop⟩ := h.digits
  unfold cutNumber
  rw [htake]
  generalize rest.dropWhile Number.isDigit = after at hdrop
  generalize rest'.dropWhile Number.isDigit = after' at hdrop
  cases hdrop with
  | nil => rfl
  | @cons x y xs ys hx hxs =>
    obtain rfl | ⟨hx, rfl⟩ := hx
    · by_cases hpoint : y = '.'
      · subst hpoint
        cases hxs with
        | nil => rfl
        | @cons d e xs ys hd hxs =>
          obtain rfl | ⟨hd, rfl⟩ := hd
          · by_cases hdigit : Number.isDigit e = true
            · simp [hdigit, (Faded.digits hxs).1]
            · simp [hdigit]
          · have hspace : Number.isDigit ' ' = false := by decide
            simp [hd.digit, hspace]
      · simp [hpoint]
    · have hpoint : x ≠ '.' := by
        rintro rfl
        cases hx.punctuation
      simp [hpoint]

theorem Faded.word {rest' : List Char} (h : Faded rest rest') :
    (cutWord c rest').1 = (cutWord c rest).1 := by
  obtain ⟨htake, -⟩ := h.run (fun _ => Stray.wordPart) (by decide)
  simp only [cutWord, htake]

theorem cut_alone {alone withEqual : TokenKind} (hc : comparison? c = some (alone, withEqual))
    (h : rest.head? ≠ some '=') : cut c rest = (⟨.token alone, [c]⟩, rest) := by
  simp only [cut, punctuation_of_comparison hc, hc]
  split
  · exact absurd rfl h
  · rfl

theorem Faded.comparison {rest' : List Char} (h : Faded rest rest')
    {kinds : TokenKind × TokenKind} (hc : comparison? c = some kinds) :
    (cut c rest').1 = (cut c rest).1 := by
  cases h with
  | nil => rfl
  | @cons x y xs ys hx h =>
    obtain rfl | ⟨hx, rfl⟩ := hx
    · by_cases hequal : y = '='
      · subst hequal
        simp [cut, punctuation_of_comparison hc, hc]
      · rw [cut_alone hc (by simpa using hequal), cut_alone hc (by simpa using hequal)]
    · have hequal : x ≠ '=' := by
        rintro rfl
        cases hx.comparison
      rw [cut_alone hc (by simp), cut_alone hc (by simpa using hequal)]

-- The text of a comment decides that it is one, and only the end of the text or a line feed can
-- end one that begins with two slashes.
theorem Faded.comment {text : List Char} (h : Faded after after')
    (hcut : cutSlash rest = (⟨.comment, '/' :: text⟩, after)) :
    (cutSlash (text ++ after')).1 = ⟨.comment, '/' :: text⟩ := by
  unfold cutSlash at hcut
  split at hcut
  · next rest =>
    obtain ⟨hpiece, rfl⟩ := Prod.mk.inj hcut
    obtain rfl : '/' :: rest.takeWhile (· ≠ '\n') = text := by simpa using hpiece
    have hstop : after' = [] ∨ ∃ ys, after' = '\n' :: ys := by
      generalize hdrop : rest.dropWhile (· ≠ '\n') = dropped at h
      cases h with
      | nil => exact .inl rfl
      | @cons x y xs ys hx h =>
        obtain rfl := eq_of_dropWhile_ne hdrop
        obtain rfl | ⟨hx, -⟩ := hx
        · exact .inr ⟨ys, rfl⟩
        · cases hx.blank
    have hbody : ∀ d ∈ rest.takeWhile (· ≠ '\n'), decide (d ≠ '\n') = true := by
      intro d hd
      simpa using List.mem_takeWhile_imp hd
    simp only [List.cons_append, cutSlash]
    obtain rfl | ⟨ys, rfl⟩ := hstop
    · rw [List.append_nil, List.takeWhile_eq_self_iff.2 hbody]
    · rw [takeWhile_of_stop hbody (by decide)]
  · next rest =>
    split at hcut
    · next body more hbody =>
      obtain ⟨hpiece, rfl⟩ := Prod.mk.inj hcut
      obtain rfl : '*' :: body = text := by simpa using hpiece
      have hends : cutComment 1 (body ++ after') = some (body, after') :=
        cutComment_eq_some_iff.2 ⟨rfl, (cutComment_eq_some_iff.1 hbody).2⟩
      simp [cutSlash, hends]
    · cases hcut
  · cases hcut

theorem cutQuote_text_append {text : List Char} (htext : (cutQuote rest).1.text = '"' :: text)
    (hopen : ¬ (cutQuote rest).1.Open) (others : List Char) :
    (cutQuote (text ++ others)).1 = (cutQuote rest).1 := by
  have hbody : '"' ∉ rest.takeWhile (· ≠ '"') := fun hmem => by
    simpa using List.mem_takeWhile_imp hmem
  unfold cutQuote at htext hopen ⊢
  cases hdrop : rest.dropWhile (· ≠ '"') with
  | nil =>
    rw [hdrop] at hopen
    exact absurd (.inl rfl) hopen
  | cons quote after =>
    rw [hdrop] at htext
    obtain rfl := eq_of_dropWhile_ne hdrop
    obtain rfl : rest.takeWhile (· ≠ '"') ++ ['"'] = text := by simpa using htext
    have hstop := forall_ne_of_notMem hbody
    rw [List.append_assoc, List.singleton_append, takeWhile_of_stop hstop (by decide),
      dropWhile_of_stop hstop (by decide)]

-- A piece is the same before a space as before a character that begins nothing.
theorem Faded.cut_eq (h : Faded (cut c rest).2 after') (hopen : ¬ (cut c rest).1.Open) :
    ∃ text, (cut c rest).1.text = c :: text ∧
      cut c (text ++ after') = ((cut c rest).1, after') := by
  obtain ⟨text, htext⟩ : ∃ text, (cut c rest).1.text = c :: text := by
    cases hpiece : (cut c rest).1.text with
    | nil => exact absurd hpiece (text_cut_ne_nil c rest)
    | cons d text =>
      have hsource := text_cut c rest
      rw [hpiece] at hsource
      exact ⟨text, by rw [(List.cons.inj hsource).1]⟩
  have hrest : rest = text ++ (cut c rest).2 := by
    have hsource := text_cut c rest
    rw [htext] at hsource
    exact (List.cons.inj hsource).2.symm
  have hfaded : Faded rest (text ++ after') := by
    have happend := (Faded.refl text).append h
    rwa [← hrest] at happend
  -- what is left after the piece follows from the piece
  suffices hpiece : (cut c (text ++ after')).1 = (cut c rest).1 by
    refine ⟨text, htext, Prod.ext hpiece ?_⟩
    have hsource := text_cut c (text ++ after')
    rw [hpiece, htext] at hsource
    simpa using hsource
  cases hpunctuation : punctuation? c with
  | some kind => simp [cut, hpunctuation]
  | none =>
  cases hcomparison : comparison? c with
  | some kinds => exact hfaded.comparison hcomparison
  | none =>
  by_cases hslash : c = '/'
  · subst hslash
    change (cutSlash (text ++ after')).1 = (cutSlash rest).1
    obtain hkind | hkind | hkind := kind_cutSlash rest
    · exact hfaded.slash hkind
    · have hpiece : (cutSlash rest).1 = ⟨.comment, '/' :: text⟩ := by
        rw [← hkind]
        exact congrArg (Piece.mk _) htext
      rw [h.comment (Prod.ext hpiece rfl), hpiece]
    · exact absurd (.inr hkind) hopen
  by_cases hblank : isBlank c = true
  · simp [cut, hpunctuation, hcomparison, hslash, hblank]
  by_cases hquote : c = '"'
  · subst hquote
    exact cutQuote_text_append htext hopen after'
  by_cases hdigit : Number.isDigit c = true
  · rw [cut_digit hdigit, cut_digit hdigit, hfaded.number]
  by_cases hstart : isWordStart c = true
  · rw [cut_wordStart hstart, cut_wordStart hstart, hfaded.word]
  · simp [cut, hpunctuation, hcomparison, hslash, hblank, hquote, hdigit, hstart]

end

theorem stray_of_mem_pieces {source : List Char} {p : Piece} (h : p ∈ pieces source)
    (hkind : p.kind = .stray) : ∃ c, Stray c ∧ p = ⟨.stray, [c]⟩ := by
  fun_induction pieces source with
  | case1 => simp at h
  | case2 c rest ih =>
    obtain rfl | h := List.mem_cons.1 h
    · have hc := stray_of_kind_cut hkind
      exact ⟨c, hc, congrArg Prod.fst (hc.cut_eq rest)⟩
    · exact ih h

-- What is left open runs to the end of the text.
theorem Piece.Open.unended {c : Char} {rest : List Char} (h : (cut c rest).1.Open) :
    Unended (cut c rest).1.kind (c :: rest) ∧
      cut c rest = (⟨(cut c rest).1.kind, c :: rest⟩, []) := by
  have hcuts := cuts_cut c rest
  have htext := text_cut c rest
  generalize cut c rest = p at h hcuts htext ⊢
  obtain ⟨p, after⟩ := p
  cases hcuts with
  | lexeme hlexeme =>
    obtain hkind | hkind | ⟨kind, hkind⟩ := hlexeme.ordinary <;>
      obtain h | h := h <;> cases hkind.symm.trans h
  | unended hunended => exact ⟨hunended, by simpa using htext⟩
  | stray => obtain h | h := h <;> cases h

theorem Piece.blanked_of_ne {p : Piece} (h : p.kind ≠ .stray) : p.blanked = p :=
  if_neg h

theorem Piece.blanked_of_stray {p : Piece} (h : p.kind = .stray) : p.blanked = ⟨.blank, [' ']⟩ :=
  if_pos h

theorem faded_pieces (source : List Char) :
    Faded source ((pieces source).flatMap (·.blanked.text)) := by
  fun_induction pieces source with
  | case1 => exact .nil
  | case2 c rest ih =>
    have hpiece : Faded (cut c rest).1.text (cut c rest).1.blanked.text := by
      by_cases hkind : (cut c rest).1.kind = .stray
      · have hc := stray_of_kind_cut hkind
        rw [Piece.blanked_of_stray hkind, hc.cut_eq]
        exact .cons (.inr ⟨hc, rfl⟩) .nil
      · rw [Piece.blanked_of_ne hkind]
        exact .refl _
    have h := hpiece.append ih
    rwa [text_cut] at h

-- The spaces take the places of the characters they stand for, and every other piece stays.
theorem pieces_blanked (source : List Char) :
    pieces ((pieces source).flatMap (·.blanked.text)) = (pieces source).map Piece.blanked := by
  fun_induction pieces source with
  | case1 => simp [pieces]
  | case2 c rest ih =>
    rw [List.flatMap_cons, List.map_cons]
    by_cases hkind : (cut c rest).1.kind = .stray
    · rw [Piece.blanked_of_stray hkind, List.singleton_append, pieces, cut_blank (by decide), ih]
    rw [Piece.blanked_of_ne hkind]
    by_cases hopen : (cut c rest).1.Open
    · obtain ⟨-, hcut⟩ := hopen.unended
      have hafter : (cut c rest).2 = [] := congrArg Prod.snd hcut
      have htext : (cut c rest).1.text = c :: rest := congrArg (·.1.text) hcut
      simp [htext, hafter, pieces]
    · obtain ⟨text, htext, hcut⟩ := (faded_pieces (cut c rest).2).cut_eq hopen
      rw [htext, List.cons_append, pieces, hcut, ih]

-- A space ends on the same line as the character it stands for, and is neither a token nor an
-- error.
theorem collect_blanked (line : Int) {ps : List Piece}
    (h : ∀ p ∈ ps, p.kind = .stray → ∃ c, Stray c ∧ p = ⟨.stray, [c]⟩) :
    collect line (ps.map Piece.blanked) = ⟨(collect line ps).tokens,
      (collect line ps).errors.filter (!·.fault.isUnexpected)⟩ := by
  induction ps generalizing line with
  | nil => rfl
  | cons p ps ih =>
    obtain ⟨hp, hps⟩ := List.forall_mem_cons.1 h
    rw [List.map_cons, collect, collect, ih _ hps]
    by_cases hkind : p.kind = .stray
    · obtain ⟨c, hc, rfl⟩ := hp hkind
      have hfeeds : Piece.lineFeeds ⟨.stray, [c]⟩ = Piece.lineFeeds ⟨.blank, [' ']⟩ := by
        have hne : c ≠ '\n' := by
          rintro rfl
          cases hc.blank
        simp [Piece.lineFeeds, hne]
      rw [Piece.blanked_of_stray hkind, hfeeds]
      rfl
    · rw [Piece.blanked_of_ne hkind]
      have herrors : (p.error? (line + p.lineFeeds)).toList.filter (!·.fault.isUnexpected) =
          (p.error? (line + p.lineFeeds)).toList := by
        unfold Piece.error?
        split
        · next h => exact absurd h hkind
        · rfl
        · rfl
        · rfl
      simp only [List.filter_append, herrors]

theorem isUnexpected_of_not_open {line : Int} {ps : List Piece} (h : ∀ p ∈ ps, ¬ p.Open) :
    ∀ e ∈ (collect line ps).errors, e.fault.isUnexpected = true := by
  induction ps generalizing line with
  | nil => simp [collect]
  | cons p ps ih =>
    obtain ⟨hp, hps⟩ := List.forall_mem_cons.1 h
    intro e he
    obtain he | he := List.mem_append.1 he
    · unfold Piece.error? at he
      split at he
      · obtain rfl : e = _ := by simpa using he
        rfl
      · next hkind => exact absurd (.inl hkind) hp
      · next hkind => exact absurd (.inr hkind) hp
      · simp at he
    · exact ih hps e he

theorem open_is_last {source : List Char} {ps qs : List Piece} {p : Piece}
    (h : pieces source = ps ++ p :: qs) (hopen : p.Open) : qs = [] ∧ Unended p.kind p.text := by
  fun_induction pieces source generalizing ps with
  | case1 => simp at h
  | case2 c rest ih =>
    cases ps with
    | nil =>
      obtain ⟨rfl, hqs⟩ := List.cons.inj h
      obtain ⟨hunended, hcut⟩ := hopen.unended
      have hafter : (cut c rest).2 = [] := congrArg Prod.snd hcut
      have htext : (cut c rest).1.text = c :: rest := congrArg (·.1.text) hcut
      rw [hafter, pieces] at hqs
      exact ⟨hqs.symm, htext ▸ hunended⟩
    | cons q ps => exact ih (List.cons.inj h).2

-- Either nothing is left open, or only the last piece is.
theorem open_pieces (source : List Char) : (∀ p ∈ pieces source, ¬ p.Open) ∨
    ∃ ps p, pieces source = ps ++ [p] ∧ p.Open ∧ Unended p.kind p.text ∧ ∀ q ∈ ps, ¬ q.Open := by
  by_cases hall : ∀ p ∈ pieces source, ¬ p.Open
  · exact .inl hall
  right
  push Not at hall
  obtain ⟨p, hp, hopen⟩ := hall
  obtain ⟨ps, qs, hpieces⟩ := List.append_of_mem hp
  obtain ⟨rfl, hunended⟩ := open_is_last hpieces hopen
  refine ⟨ps, p, hpieces, hopen, hunended, fun q hq hopen' => ?_⟩
  obtain ⟨before, after, rfl⟩ := List.append_of_mem hq
  rw [List.append_assoc, List.cons_append] at hpieces
  simpa using (open_is_last hpieces hopen').1

theorem extents_append (start : Nat) (ps qs : List Piece) :
    extents start (ps ++ qs) =
      extents start ps ++ extents (start + (ps.flatMap Piece.text).length) qs := by
  induction ps generalizing start with
  | nil => rfl
  | cons p ps ih =>
    simp only [List.cons_append, extents, ih, List.flatMap_cons, List.length_append, Nat.add_assoc]

theorem stop_le_of_mem_extents {start : Nat} {ps : List Piece} {e : Extent}
    (h : e ∈ extents start ps) : e.stop ≤ start + (ps.flatMap Piece.text).length := by
  induction ps generalizing start with
  | nil => simp [extents] at h
  | cons p ps ih =>
    rw [List.flatMap_cons, List.length_append]
    obtain rfl | h := List.mem_cons.1 h
    · simp only [Extent.stop]
      omega
    · have hstop := ih h
      omega

-- The characters that are reported as unexpected are the ones that are replaced.
theorem reports_stray (source : String) :
    List.Forall₂ (Extent.Reports source)
      ((extents 0 (pieces source.toList)).filter (·.piece.kind = .stray))
      ((scan source).errors.filter (·.fault.isUnexpected)) := by
  rw [scan, errors_eq_filterMap, placed_pieces, List.filterMap_map, List.filter_filterMap]
  refine forall₂_filterMap fun e he => ?_
  obtain ⟨-, error, herror, hreports⟩ | ⟨hfault, hnone⟩ := reports_or_silent he
  · dsimp only [Function.comp_apply]
    rw [herror]
    cases hreports with
    | stray hpiece hunexpected hline =>
      refine .inl ⟨by simp [hpiece], error, ?_, .stray hpiece hunexpected hline⟩
      simp [hunexpected, ScanFault.isUnexpected]
    | string hkind hunended =>
      exact .inr ⟨by simp [hkind], by simp [hunended, ScanFault.isUnexpected]⟩
    | comment hkind hunended =>
      exact .inr ⟨by simp [hkind], by simp [hunended, ScanFault.isUnexpected]⟩
  · right
    dsimp only [Function.comp_apply]
    rw [hnone]
    refine ⟨?_, rfl⟩
    rw [decide_eq_false_iff_not]
    intro hkind
    simp [Piece.isFault, hkind] at hfault

-- A string or a comment that nothing ends takes the rest of its text. Its error is the last one,
-- and the tokens all end before it.
structure LeftOpen (source : String) (e : ScanError) (before opening : List Char) : Prop where
  text : source.toList = before ++ opening
  opening : e.fault = .unterminatedString ∧ Unended .openString opening ∨
    e.fault = .unterminatedComment ∧ Unended .openComment opening
  errors : ∃ others, (scan source).errors = others ++ [e] ∧
    ∀ other ∈ others, other.fault.isUnexpected = true
  tokens : ∃ words, (scan source).tokens = words ++ [⟨.eof, "", .nil, lastLine source⟩] ∧
    List.Forall₂ (fun x t => x.Makes source t ∧ x.stop ≤ before.length)
      ((extents 0 (pieces source.toList)).filter (·.piece.isToken)) words

theorem leftOpen_of_mem {source : String} {e : ScanError} (he : e ∈ (scan source).errors)
    (hfault : e.fault.isUnexpected = false) :
    ∃ before opening, LeftOpen source e before opening := by
  obtain hclosed | ⟨ps, p, hpieces, hopen, hunended, hclosed⟩ := open_pieces source.toList
  · rw [isUnexpected_of_not_open hclosed e he] at hfault
    cases hfault
  have hothers := @isUnexpected_of_not_open 1 ps hclosed
  have herrors : (scan source).errors =
      (collect 1 ps).errors ++ (p.error? (1 + feeds ps + p.lineFeeds)).toList := by
    rw [scan, hpieces, errors_append]
    simp [collect]
  have hlast : p.error? (1 + feeds ps + p.lineFeeds) = some e := by
    rw [herrors] at he
    obtain he | he := List.mem_append.1 he
    · rw [hothers e he] at hfault
      cases hfault
    · exact Option.mem_toList.1 he
  refine ⟨ps.flatMap Piece.text, p.text, ?_, ?_, ⟨_, ?_, hothers⟩,
    ⟨words 1 (pieces source.toList), ?_, ?_⟩⟩
  · rw [← flatten_pieces source.toList, hpieces, List.flatMap_append]
    simp
  · obtain hkind | hkind := hopen
    all_goals
      simp only [Piece.error?, hkind, Option.some.injEq] at hlast
      subst hlast
      rw [hkind] at hunended
    · exact .inl ⟨rfl, hunended⟩
    · exact .inr ⟨rfl, hunended⟩
  · rw [herrors, hlast, Option.toList_some]
  · rw [scan, tokens_collect, feeds_pieces, lastLine]
  · rw [words_eq_filterMap, placed_pieces, List.filterMap_map]
    refine forall₂_filterMap fun x hx => ?_
    obtain ⟨htoken, t, ht, hmakes⟩ | hsilent := makes_or_silent hx
    · refine .inl ⟨htoken, t, ht, hmakes, ?_⟩
      rw [hpieces, extents_append] at hx
      obtain hx | hx := List.mem_append.1 hx
      · simpa using stop_le_of_mem_extents hx
      · obtain rfl : x = _ := List.mem_singleton.1 hx
        obtain hkind | hkind := hopen <;> simp [Piece.isToken, hkind] at htoken
    · exact .inr hsilent

-- A character out of place costs nothing but itself: with a space in its place the text has the
-- same tokens on the same lines, and all errors but the one for the character. What is left open
-- is the last error, and costs the rest of the text.
theorem scan_cleared (source : String) :
    scan (cleared source) =
      ⟨(scan source).tokens, (scan source).errors.filter (!·.fault.isUnexpected)⟩ ∧
    List.Forall₂ (Extent.Reports source)
      ((extents 0 (pieces source.toList)).filter (·.piece.kind = .stray))
      ((scan source).errors.filter (·.fault.isUnexpected)) ∧
    ∀ e ∈ (scan source).errors, e.fault.isUnexpected = false →
      ∃ before opening, LeftOpen source e before opening := by
  refine ⟨?_, reports_stray source, fun e he hfault => leftOpen_of_mem he hfault⟩
  rw [scan, cleared, String.toList_ofList, pieces_blanked]
  exact collect_blanked 1 fun p hp hkind => stray_of_mem_pieces hp hkind

-- Characters out of place stand beside parts of lexemes, and in a comment and in a string.
example : cleared "1.@2 !@= /@// @\n\"@\" #\"@" = "1. 2 ! = / // @\n\"@\"  \"@" := by
  decide +kernel

end Lox.Source
