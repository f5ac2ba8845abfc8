import Lox.Proofs.Source.Lines

namespace Lox.Source

-- White space and comments, each of them complete.
inductive Layout : List Char → Prop
  | nil : Layout []
  | blank {c : Char} {text : List Char} :
    c ∈ [' ', '\t', '\r', '\n'] → Layout text → Layout (c :: text)
  | lineComment {body text : List Char} :
    '\n' ∉ body → Layout text → Layout ('/' :: '/' :: (body ++ '\n' :: text))
  | blockComment {comment text : List Char} :
    BlockComment comment → Layout text → Layout (comment ++ text)

-- What keeps two lexemes apart: layout that starts with white space, since a comment could take a
-- slash before it for its opening.
structure Gap (text : List Char) : Prop where
  layout : Layout text
  blank : ∃ c rest, text = c :: rest ∧ c ∈ [' ', '\t', '\r', '\n']

-- What can stand at either end of a text.
def Margin (text : List Char) : Prop :=
  text = [] ∨ Gap text

-- What follows a lexeme: further lexemes with a gap before each, and a margin.
inductive GoesOn : List (List Char) → List Char → Prop
  | stop {margin : List Char} : Margin margin → GoesOn [] margin
  | next {gap lexeme rest : List Char} {lexemes : List (List Char)} :
    Gap gap → GoesOn lexemes rest → GoesOn (lexeme :: lexemes) (gap ++ (lexeme ++ rest))

-- Lexemes written out in order, with any layout.
inductive LaidOut : List (List Char) → List Char → Prop
  | nothing {margin : List Char} : Margin margin → LaidOut [] margin
  | first {margin lexeme rest : List Char} {lexemes : List (List Char)} :
    Margin margin → GoesOn lexemes rest → LaidOut (lexeme :: lexemes) (margin ++ (lexeme ++ rest))

-- What a token says apart from its line.
def wordOf (t : Token) : TokenKind × String × Literal :=
  (t.kind, t.lexeme, t.literal)

-- A piece that is neither a token nor an error.
def Piece.Quiet (p : Piece) : Prop :=
  p.kind = .blank ∨ p.kind = .comment

theorem quiet_adds_nothing {ps : List Piece} (h : ∀ p ∈ ps, p.Quiet) (line : Int)
    (qs : List Piece) :
    words line (ps ++ qs) = words (line + feeds ps) qs ∧
      (collect line (ps ++ qs)).errors = (collect (line + feeds ps) qs).errors := by
  rw [words_append, errors_append]
  suffices hnone : words line ps = [] ∧ (collect line ps).errors = [] by simp [hnone]
  induction ps generalizing line with
  | nil => exact ⟨rfl, rfl⟩
  | cons p ps ih =>
    obtain ⟨hp, hps⟩ := List.forall_mem_cons.1 h
    obtain ⟨hwords, herrors⟩ := ih hps (line + p.lineFeeds)
    rw [words, collect, hwords, herrors]
    obtain hk | hk := hp <;> simp [Piece.token?, Piece.error?, hk]

section

variable {gap rest : List Char}

theorem cut_slash (rest : List Char) : cut '/' rest = cutSlash rest := rfl

-- Layout is cut into pieces of its own, whatever comes behind it.
theorem Layout.pieces_append (h : Layout gap) (rest : List Char) :
    ∃ ps, (∀ p ∈ ps, p.Quiet) ∧ pieces (gap ++ rest) = ps ++ pieces rest := by
  induction h with
  | nil => exact ⟨[], by simp, rfl⟩
  | @blank c text hc _ ih =>
    obtain ⟨ps, hps, htext⟩ := ih
    refine ⟨⟨.blank, [c]⟩ :: ps, List.forall_mem_cons.2 ⟨.inl rfl, hps⟩, ?_⟩
    rw [List.cons_append, pieces, cut_blank hc, htext, List.cons_append]
  | @lineComment body text hbody _ ih =>
    obtain ⟨ps, hps, htext⟩ := ih
    have hne := forall_ne_of_notMem hbody
    have hcut : cut '/' ('/' :: (body ++ '\n' :: (text ++ rest))) =
        (⟨.comment, '/' :: '/' :: body⟩, '\n' :: (text ++ rest)) := by
      rw [cut_slash, cutSlash, takeWhile_of_stop hne (by decide), dropWhile_of_stop hne (by decide)]
    refine ⟨⟨.comment, '/' :: '/' :: body⟩ :: ⟨.blank, ['\n']⟩ :: ps, ?_, ?_⟩
    · exact List.forall_mem_cons.2 ⟨.inr rfl, List.forall_mem_cons.2 ⟨.inl rfl, hps⟩⟩
    · simp only [List.cons_append, List.append_assoc]
      rw [pieces, hcut, pieces, cut_blank (by simp), htext]
  | @blockComment comment text hcomment _ ih =>
    obtain ⟨ps, hps, htext⟩ := ih
    obtain ⟨body, rfl, hcloses⟩ := blockComment_iff.1 hcomment
    have hcut : cut '/' ('*' :: (body ++ (text ++ rest))) =
        (⟨.comment, '/' :: '*' :: body⟩, text ++ rest) := by
      have hbody : cutComment 1 (body ++ (text ++ rest)) = some (body, text ++ rest) :=
        cutComment_eq_some_iff.2 ⟨rfl, hcloses⟩
      rw [cut_slash, cutSlash, hbody]
    refine ⟨⟨.comment, '/' :: '*' :: body⟩ :: ps, List.forall_mem_cons.2 ⟨.inr rfl, hps⟩, ?_⟩
    simp only [List.cons_append, List.append_assoc]
    rw [pieces, hcut, htext]

theorem Margin.layout (h : Margin gap) : Layout gap := by
  obtain rfl | h := h
  · exact .nil
  · exact h.layout

-- Nothing but white space stands right behind a lexeme.
theorem GoesOn.head {lexemes : List (List Char)} (h : GoesOn lexemes rest) :
    rest = [] ∨ ∃ b others, rest = b :: others ∧ isBlank b = true := by
  have hgap : ∀ {gap : List Char}, Gap gap → ∀ more,
      ∃ b others, gap ++ more = b :: others ∧ isBlank b = true := by
    intro gap hgap more
    obtain ⟨b, others, rfl, hb⟩ := hgap.blank
    exact ⟨b, others ++ more, rfl, by simpa [isBlank, or_assoc] using hb⟩
  cases h with
  | stop hmargin =>
    obtain rfl | hmargin := hmargin
    · exact .inl rfl
    · right
      simpa using hgap hmargin []
  | next h _ => exact .inr (hgap h _)

end

section

variable {kind : TokenKind} {c : Char} {text : List Char}

-- A lexeme alone is cut off as a whole.
theorem Lexeme.cut_alone (h : Lexeme (.token kind) (c :: text)) :
    cut c text = (⟨.token kind, c :: text⟩, []) := by
  have hlength := congrArg List.length (text_cut c text)
  rw [List.length_append] at hlength
  obtain hpiece | hlonger := h.covered (List.prefix_refl _)
  · rw [hpiece] at hlength
    have hrest : (cut c text).2 = [] := List.length_eq_zero_iff.1 (by simpa using hlength)
    exact Prod.ext hpiece hrest
  · omega

-- So it is before white space.
theorem Lexeme.pieces_append {lexeme rest : List Char} {lexemes : List (List Char)}
    (h : Lexeme (.token kind) lexeme) (hrest : GoesOn lexemes rest) :
    pieces (lexeme ++ rest) = ⟨.token kind, lexeme⟩ :: pieces rest := by
  obtain ⟨c, text, rfl⟩ := List.exists_cons_of_ne_nil h.ne_nil
  have hcut : cut c (text ++ rest) = (⟨.token kind, c :: text⟩, rest) := by
    obtain rfl | ⟨b, others, rfl, hb⟩ := hrest.head
    · rw [List.append_nil, h.cut_alone]
    · rw [cut_append hb others] <;> simp [h.cut_alone, Piece.Open]
  rw [List.cons_append, pieces, hcut]

end

-- A token of a text whose lexeme its grammar has.
def Proper (t : Token) : Prop :=
  ∃ text line, Lexeme (.token t.kind) text ∧
    t = ⟨t.kind, String.ofList text, literalOf t.kind text, line⟩

section

variable {ts : List Token} {t : Token} {text rest : List Char} {lexemes : List (List Char)}

theorem Proper.words_append (h : Proper t) (hrest : GoesOn lexemes rest) (line : Int) :
    ∃ line', (words line (pieces (t.lexeme.toList ++ rest))).map wordOf =
        wordOf t :: (words line' (pieces rest)).map wordOf ∧
      (collect line (pieces (t.lexeme.toList ++ rest))).errors =
        (collect line' (pieces rest)).errors := by
  obtain ⟨text, line₀, hlexeme, ht⟩ := h
  have htext : t.lexeme.toList = text := by rw [ht, String.toList_ofList]
  rw [htext, hlexeme.pieces_append hrest, words, collect]
  exact ⟨_, by rw [ht]; rfl, rfl⟩

-- Lexemes behind gaps are scanned as themselves.
theorem GoesOn.scan (h : GoesOn (ts.map fun t => t.lexeme.toList) text) (hts : ∀ t ∈ ts, Proper t)
    (line : Int) : (words line (pieces text)).map wordOf = ts.map wordOf ∧
      (collect line (pieces text)).errors = [] := by
  generalize hlexemes : (ts.map fun t => t.lexeme.toList) = lexemes at h
  induction h generalizing ts line with
  | @stop margin hmargin =>
    obtain ⟨ps, hps, hpieces⟩ := hmargin.layout.pieces_append []
    obtain ⟨hwords, herrors⟩ := quiet_adds_nothing hps line []
    rw [List.map_eq_nil_iff] at hlexemes
    rw [List.append_nil, pieces] at hpieces
    rw [hpieces, hwords, herrors, hlexemes]
    exact ⟨rfl, rfl⟩
  | @next gap lexeme rest lexemes hgap hrest ih =>
    obtain ⟨t, ts, rfl, rfl, rfl⟩ := List.map_eq_cons_iff.1 hlexemes
    obtain ⟨ht, hts⟩ := List.forall_mem_cons.1 hts
    obtain ⟨ps, hps, hpieces⟩ := hgap.layout.pieces_append (t.lexeme.toList ++ rest)
    obtain ⟨hwords, herrors⟩ := quiet_adds_nothing hps line
      (pieces (t.lexeme.toList ++ rest))
    obtain ⟨line', hfirst, hsame⟩ := ht.words_append hrest (line + feeds ps)
    obtain ⟨hothers, hnone⟩ := ih hts line' rfl
    rw [hpieces, hwords, herrors, hfirst, hsame, hothers, hnone]
    exact ⟨rfl, rfl⟩

theorem LaidOut.scan (h : LaidOut (ts.map fun t => t.lexeme.toList) text)
    (hts : ∀ t ∈ ts, Proper t) (line : Int) :
    (words line (pieces text)).map wordOf = ts.map wordOf ∧
      (collect line (pieces text)).errors = [] := by
  generalize hlexemes : (ts.map fun t => t.lexeme.toList) = lexemes at h
  cases h with
  | nothing hmargin => exact GoesOn.scan (hlexemes ▸ .stop hmargin) hts line
  | @first margin lexeme rest lexemes hmargin hrest =>
    obtain rfl | hgap := hmargin
    · obtain ⟨t, ts, rfl, rfl, rfl⟩ := List.map_eq_cons_iff.1 hlexemes
      obtain ⟨ht, hts⟩ := List.forall_mem_cons.1 hts
      obtain ⟨line', hfirst, hsame⟩ := ht.words_append hrest line
      obtain ⟨hothers, hnone⟩ := hrest.scan hts line'
      rw [List.nil_append, hfirst, hsame, hothers, hnone]
      exact ⟨rfl, rfl⟩
    · exact GoesOn.scan (hlexemes ▸ .next hgap hrest) hts line

-- Scanning undoes writing out. Whatever layout the lexemes of a text are written out with, they
-- are scanned without an error, and give the tokens of the text up to their lines.
theorem scan_laid_out {source text : String}
    (h : LaidOut ((scan source).tokens.dropLast.map fun t => t.lexeme.toList) text.toList) :
    (scan text).errors = [] ∧
      (scan text).tokens.map wordOf = (scan source).tokens.map wordOf := by
  simp only [scan, tokens_collect, List.dropLast_concat, List.map_append] at h ⊢
  obtain ⟨hwords, herrors⟩ := h.scan (fun t => lexeme_of_mem_words) 1
  rw [hwords, herrors]
  exact ⟨rfl, rfl⟩

end

theorem gap_of_layout {c : Char} {text : List Char} (hc : c ∈ [' ', '\t', '\r', '\n'])
    (h : Layout text) : Gap (c :: text) :=
  ⟨.blank hc h, c, text, rfl, hc⟩

-- A comment may stand behind the slash of a quotient if white space keeps them apart.
theorem scan_laid_out_quotient :
    let text := "1 / /* /**/ */2 // half\n"
    LaidOut ((scan "1/2").tokens.dropLast.map fun t => t.lexeme.toList) text.toList ∧
      (scan text).errors = [] ∧
      (scan text).tokens.map wordOf = (scan "1/2").tokens.map wordOf := by
  intro text
  have hlexemes : ((scan "1/2").tokens.dropLast.map fun t => t.lexeme.toList) =
      [['1'], ['/'], ['2']] := by
    decide +kernel
  have hnested : BlockComment "/* /**/ */".toList :=
    ⟨_, .other (.comment .nil (.other .nil)), rfl⟩
  have hblank : Gap [' '] := gap_of_layout (by decide) .nil
  have hcomment : Gap (' ' :: ("/* /**/ */".toList ++ [])) :=
    gap_of_layout (by decide) (.blockComment hnested .nil)
  have hline : Gap (' ' :: '/' :: '/' :: (" half".toList ++ '\n' :: [])) :=
    gap_of_layout (by decide) (.lineComment (by decide) .nil)
  have htwo := @GoesOn.next _ ['2'] _ _ hcomment (.stop (.inr hline))
  have hslash := @GoesOn.next _ ['/'] _ _ hblank htwo
  have hlaid : LaidOut [['1'], ['/'], ['2']] text.toList := by
    simpa [text] using @LaidOut.first [] ['1'] _ _ (.inl rfl) hslash
  rw [← hlexemes] at hlaid
  exact ⟨hlaid, scan_laid_out hlaid⟩

end Lox.Source
