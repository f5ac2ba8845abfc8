import Lox.Proofs.Grammar.Derived
import Lox.Proofs.Source.Spelled
import Lox.Proofs.Syntax.Parsed
import Lox.Proofs.Syntax.RereadStatement
import Mathlib.Data.List.Basic

namespace Lox

-- What a token says, wherever it stands: the kind, the literal, and the text unless it is that of
-- a number, which has many texts.
def Token.content (t : Token) : TokenKind × Literal × String :=
  (t.kind, t.literal, if t.kind = .number then "" else t.lexeme)

-- What tokens say in order.
def contents (ts : List Token) : List (TokenKind × Literal × String) :=
  ts.map Token.content

@[simp] theorem contents_nil : contents [] = [] := rfl

@[simp] theorem contents_cons (t : Token) (ts : List Token) :
    contents (t :: ts) = t.content :: contents ts := rfl

@[simp] theorem contents_append (ts us : List Token) :
    contents (ts ++ us) = contents ts ++ contents us :=
  List.map_append

theorem contents_flatMap {α : Type} (items : List α) (f : α → List Token) :
    contents (items.flatMap f) = items.flatMap fun a => contents (f a) :=
  List.map_flatMap

theorem Token.Spelled.content {t : Token} {kind : TokenKind} (h : t.Spelled) (hk : t.kind = kind)
    (hopen : ¬ kind.Open) : (Token.fixed kind).content = t.content := by
  subst hk
  obtain ⟨hliteral, hlexeme⟩ := (Token.spelled_iff hopen).1 h
  rw [Token.content, Token.content, hliteral, hlexeme]
  rfl

theorem Token.Spelled.textual {t : Token} (h : t.Spelled) : t.Textual := by
  intro hk
  simp only [List.mem_cons, List.not_mem_nil, or_false] at hk
  obtain hk | hk := hk <;> simp only [Token.Spelled, hk] at h
  · obtain ⟨value, hv⟩ := h
    rw [hv]
    trivial
  · obtain ⟨text, ht, -⟩ := h
    rw [ht]
    trivial

namespace Syntax

variable {α : Type}

theorem contents_constant? {t : Token} {value : Literal} (hv : constant? t = some value)
    (h : t.Spelled) : contents value.written = [t.content] := by
  unfold constant? at hv
  split at hv
  any_goals obtain rfl := Option.some.inj hv
  · next hk =>
    simp only [Token.Spelled, hk] at h
    obtain ⟨x, hx⟩ := h
    simp [hx, Literal.written, Token.content, hk]
  · next hk =>
    simp only [Token.Spelled, hk] at h
    obtain ⟨text, ht, htext⟩ := h
    simp [ht, Literal.written, Token.content, hk, htext]
  · next hk => simp [Literal.written, h.content hk (by decide)]
  · next hk => simp [Literal.written, h.content hk (by decide)]
  · next hk => simp [Literal.written, h.content hk (by decide)]
  · cases hv

theorem Listed.contents {what : ListItem} {count : Nat} {items : List (Span α)}
    {list : Span (List α)} (h : Listed what count items list) {write : α → List Token}
    (hi : ∀ s ∈ items, contents (write s.tree) = contents s.tokens)
    (ht : ∀ t ∈ list.tokens, t.Spelled) :
    contents (commaSeparated (list.tree.map write)) = contents list.tokens := by
  induction h with
  | last s => simpa [commaSeparated] using hi s (by simp)
  | @next count items others s comma hc hs ih =>
    have hrest := ih (fun s hs => hi s (by simp [hs])) fun t hmem => ht t (by simp [hmem])
    have hcomma := (ht comma (by simp)).content hc (by decide)
    obtain ⟨a, as, htree⟩ : ∃ a as, others.tree = a :: as := by
      cases hs <;> exact ⟨_, _, rfl⟩
    rw [htree, List.map_cons] at hrest
    simp [commaSeparated, htree, hcomma, hi s (by simp), ← hrest]

theorem InParens.contents {what : ListItem} {items : List (Span α)} {list : Span (List α)}
    (h : InParens what items list) (write : α → List Token)
    (hi : ∀ s ∈ items, contents (write s.tree) = contents s.tokens)
    (ht : ∀ t ∈ list.tokens, t.Spelled) :
    contents (commaSeparated (list.tree.map write)) = contents list.tokens := by
  obtain ⟨rfl, rfl⟩ | h := h
  · rfl
  · exact h.contents hi ht

-- An expression is written with what was read, in the same order.
theorem Reads.contents {level : Level} {s : Span Expr} (h : Reads level s) (he : s.errors = [])
    (ht : ∀ t ∈ s.tokens, t.Spelled) : contents s.tree.written = contents s.tokens := by
  induction h with
  | @literal t value hv => exact contents_constant? hv (ht t (by simp))
  | name hk => rfl
  | @grouping opening closing inner ho hc hi ih =>
    have hinner := ih he fun t hmem => ht t (by simp [hmem])
    have hopening := (ht opening (by simp)).content ho (by decide)
    have hclosing := (ht closing (by simp)).content hc (by decide)
    simp [Expr.written, hinner, hopening, hclosing]
  | @call callee calls hf hc ha ih iha =>
    obtain ⟨hcallee, hcalls⟩ := List.append_eq_nil_iff.1 he
    rw [List.flatMap_eq_nil_iff] at hcalls
    have hfirst := ih hcallee fun t hmem => ht t (by simp [hmem])
    rw [written_calls, contents_append, contents_append, contents_flatMap, contents_flatMap, hfirst]
    congr 1
    refine List.flatMap_congr fun a hmem => ?_
    have hproper := hc a hmem
    have hspelled : ∀ t ∈ a.tokens, t.Spelled := fun t hta =>
      ht t (List.mem_append_right _ (List.mem_flatMap.2 ⟨a, hmem, hta⟩))
    have hitems : ∀ e ∈ a.arguments, Lox.contents e.tree.written = Lox.contents e.tokens := by
      intro e he'
      refine iha a hmem e he' (hproper.inner.clean (hcalls a hmem) e he') fun t hte =>
        hspelled t ?_
      have hlist := hproper.inner.mem_tokens he' hte
      simp [Application.tokens, hlist]
    have hinner := hproper.inner.contents _ hitems fun t hmem =>
      hspelled t (by simp [Application.tokens, hmem])
    have hopening := (hspelled a.opening (by simp [Application.tokens])).content hproper.opening
      (by decide)
    simp [Application.tokens, hopening, hinner]
  | @unary operators operand ho hr ih =>
    simp [written_operators, ih he fun t hmem => ht t (by simp [hmem])]
  | @chain c first links hf ho hl ih ihl =>
    obtain ⟨hfirst, hlinks⟩ := List.append_eq_nil_iff.1 he
    rw [List.flatMap_eq_nil_iff] at hlinks
    have hwritten := ih hfirst fun t hmem => ht t (by simp [hmem])
    rw [written_links, contents_append, contents_append, contents_flatMap, contents_flatMap,
      hwritten]
    congr 1
    refine List.flatMap_congr fun l hmem => ?_
    have hoperand := ihl l hmem (hlinks l hmem) fun t htl => ht t
      (List.mem_append_right _ (List.mem_flatMap.2 ⟨l, hmem, by simp [Link.tokens, htl]⟩))
    simp [Link.tokens, hoperand]
  | plain hs ih => exact ih he ht
  | @assign target value name equal htarget hn hequal hv ih ihv =>
    obtain ⟨hte, hve⟩ := List.append_eq_nil_iff.1 he
    have hname := ih hte fun t hmem => ht t (by simp [hmem])
    have hvalue := ihv hve fun t hmem => ht t (by simp [hmem])
    have hequal := (ht equal (by simp)).content hequal (by decide)
    rw [hn] at hname
    simp [Expr.written, hequal, hvalue, ← hname]
  | misassign ht hn hequal hv ih ihv => simp at he

theorem ReadsCondition.contents {s : Span Expr} (h : ReadsCondition s) (he : s.errors = [])
    (ht : ∀ t ∈ s.tokens, t.Spelled) :
    contents (.fixed .leftParen :: (s.tree.written ++ [.fixed .rightParen])) =
      contents s.tokens := by
  cases h with
  | @mk opening closing inner ho hi hc =>
    have hopening := (ht opening (by simp)).content ho (by decide)
    have hclosing := (ht closing (by simp)).content hc (by decide)
    simp [hopening, hclosing, hi.contents he fun t hmem => ht t (by simp [hmem])]

theorem ReadsBare.contents {s : Span Stmt} (h : ReadsBare s) (he : s.errors = [])
    (ht : ∀ t ∈ s.tokens, t.Spelled) : contents s.tree.written = contents s.tokens := by
  cases h with
  | @mk value semicolon hv hs =>
    have hsemi := (ht semicolon (by simp)).content hs (by decide)
    simp [Stmt.written, hsemi, hv.contents he fun t hmem => ht t (by simp [hmem])]

theorem ReadsVariable.contents {keyword : Token} {s : Span Stmt} (hk : keyword.kind = .varKw)
    (h : ReadsVariable s) (he : s.errors = []) (ht : ∀ t ∈ keyword :: s.tokens, t.Spelled) :
    contents s.tree.written = contents (keyword :: s.tokens) := by
  have hvar := (ht keyword (by simp)).content hk (by decide)
  cases h with
  | @plain name semicolon hn hs =>
    have hsemi := (ht semicolon (by simp)).content hs (by decide)
    simp [Stmt.written, hvar, hsemi]
  | @initialized name equal semicolon value hn hequal hv hs =>
    have hsemi := (ht semicolon (by simp)).content hs (by decide)
    have heq := (ht equal (by simp)).content hequal (by decide)
    simp [Stmt.written, hvar, heq, hsemi, hv.contents he fun t hmem => ht t (by simp [hmem])]

-- A statement without `for` loops is written with what was read, in the same order.
theorem ReadsStmt.contents {slot : Slot} {tail : Tail} {s : Span Stmt} (h : ReadsStmt slot tail s)
    (he : s.errors = []) (ht : ∀ t ∈ s.tokens, t.Spelled) (hfor : ∀ t ∈ s.tokens, t.kind ≠ .forKw) :
    contents s.tree.written = contents s.tokens := by
  have hbody : ∀ {body : List (Span Stmt)} {ts : List Token}, body.flatMap Span.errors = [] →
      (∀ t ∈ ts, t.Spelled) → (∀ t ∈ ts, t.kind ≠ .forKw) →
      (∀ t ∈ body.flatMap Span.tokens, t ∈ ts) →
      (∀ s ∈ body, s.errors = [] → (∀ t ∈ s.tokens, t.Spelled) →
        (∀ t ∈ s.tokens, t.kind ≠ .forKw) → Lox.contents s.tree.written = Lox.contents s.tokens) →
      Lox.contents (Stmt.allWritten (body.map Span.tree)) =
        Lox.contents (body.flatMap Span.tokens) := by
    intro body ts herrors hts hfors hsub ih
    rw [List.flatMap_eq_nil_iff] at herrors
    rw [Stmt.allWritten_eq_flatMap, List.flatMap_map, contents_flatMap, contents_flatMap]
    refine List.flatMap_congr fun s hs => ih s hs (herrors s hs) ?_ ?_
    · exact fun t hmem => hts t (hsub t (List.mem_flatMap.2 ⟨s, hs, hmem⟩))
    · exact fun t hmem => hfors t (hsub t (List.mem_flatMap.2 ⟨s, hs, hmem⟩))
  induction h with
  | bare hs => exact hs.contents he ht
  | @print keyword semicolon value hk hv hs =>
    have hprint := (ht keyword (by simp)).content hk (by decide)
    have hsemi := (ht semicolon (by simp)).content hs (by decide)
    simp [Stmt.written, hprint, hsemi, hv.contents he fun t hmem => ht t (by simp [hmem])]
  | @returnFrom keyword semicolon value hk hv hs =>
    have hsemi := (ht semicolon (by simp)).content hs (by decide)
    cases hv with
    | absent => simp [Stmt.written, hsemi]
    | present hv =>
      simp [Stmt.written, hsemi, hv.contents he fun t hmem => ht t (by simp [hmem])]
  | @breakLoop keyword semicolon hk hs =>
    have hsemi := (ht semicolon (by simp)).content hs (by decide)
    simp [Stmt.written, hsemi]
  | @block opening closing body ho hb hc ih =>
    have hopening := (ht opening (by simp)).content ho (by decide)
    have hclosing := (ht closing (by simp)).content hc (by decide)
    have hinner := hbody he ht hfor (fun t hmem => by simp [List.mem_flatMap.1 hmem]) ih
    simp [Stmt.written, hopening, hclosing, hinner]
  | @loop keyword condition body tail hk hc hb ih =>
    obtain ⟨hce, hbe⟩ := List.append_eq_nil_iff.1 he
    have hkeyword := (ht keyword (by simp)).content hk (by decide)
    have hcondition := hc.contents hce fun t hmem => ht t (by simp [hmem])
    have hinner := ih hbe (fun t hmem => ht t (by simp [hmem]))
      fun t hmem => hfor t (by simp [hmem])
    simp [Stmt.written, hkeyword, hinner, ← hcondition]
  | @forLoop keyword opening semicolon closing initializer condition increment body tail hk =>
    exact absurd hk (hfor keyword (by simp))
  | @ifThen keyword condition yes hk hc hy ih =>
    obtain ⟨hce, hye⟩ := List.append_eq_nil_iff.1 he
    have hkeyword := (ht keyword (by simp)).content hk (by decide)
    have hcondition := hc.contents hce fun t hmem => ht t (by simp [hmem])
    have hyes := ih hye (fun t hmem => ht t (by simp [hmem])) fun t hmem => hfor t (by simp [hmem])
    simp [Stmt.written, hkeyword, hyes, ← hcondition]
  | @ifElse keyword other condition yes no tail hk hc hy helse hn ih ih' =>
    simp only [List.append_eq_nil_iff] at he
    obtain ⟨⟨hce, hye⟩, hne⟩ := he
    have hkeyword := (ht keyword (by simp)).content hk (by decide)
    have hother := (ht other (by simp)).content helse (by decide)
    have hcondition := hc.contents hce fun t hmem => ht t (by simp [hmem])
    have hyes := ih hye (fun t hmem => ht t (by simp [hmem])) fun t hmem => hfor t (by simp [hmem])
    have hno := ih' hne (fun t hmem => ht t (by simp [hmem])) fun t hmem => hfor t (by simp [hmem])
    simp [Stmt.written, hkeyword, hother, hyes, hno, ← hcondition]
  | weaken _ ih => exact ih he ht hfor
  | free _ ih => exact ih he ht hfor
  | declared hk hd => exact hd.contents hk he ht
  | @function keyword name opening closing brace last items parameters body hk hn ho hi hp hc hs hb
      hl ih =>
    obtain ⟨hpe, hbe⟩ := List.append_eq_nil_iff.1 he
    have hkeyword := (ht keyword (by simp)).content hk (by decide)
    have hopening := (ht opening (by simp)).content ho (by decide)
    have hclosing := (ht closing (by simp)).content hc (by decide)
    have hbrace := (ht brace (by simp)).content hs (by decide)
    have hlast := (ht last (by simp)).content hl (by decide)
    have hparameters := hp.contents ([·])
      (fun p hmem => congrArg Lox.contents (congrArg Span.tokens (hi p hmem).2).symm)
      fun t hmem => ht t (by simp [hmem])
    have hinner := hbody hbe ht hfor (fun t hmem => by simp [List.mem_flatMap.1 hmem]) ih
    simp [Stmt.written, hkeyword, hopening, hclosing, hbrace, hlast, hparameters, hinner]

-- No statement goes over the mark of the end.
theorem ReadsProgram.unmarked {body : List (Span Stmt)} {tokens : List Token}
    (h : ReadsProgram body tokens) : ∀ t ∈ tokens, t.kind ≠ .eof := by
  have hderived := Grammar.derives_of_admits _
    (derived_declarations (fun s hs => (h.declarations s hs).derived) h.clean)
  have hnone : TokenKind.eof ∉ _ := hderived.ne_of_unnamed (by simp [Grammar.Form.kinds])
    (by rintro (_ | _) <;> decide)
  rw [← h.tokens] at hnone
  exact fun t ht hk => hnone (List.mem_map.2 ⟨t, ht, hk⟩)

-- Reading a text and writing its trees down are inverse to each other, if the text is read without
-- errors. Without `for` loops, which have no trees of their own, the trees are written with the
-- tokens of the text. In any case what they are written with is read without errors, as the same
-- trees.
theorem parse_written {source : String}
    (h : (parse (Source.scan source).tokens).errors = []) {stop : Token} (hstop : stop.kind = .eof) :
    ((∀ t ∈ (Source.scan source).tokens, t.kind ≠ .forKw) →
      contents (Stmt.allWritten (parse (Source.scan source).tokens).statements) =
        contents (unmarked (Source.scan source).tokens)) ∧
    parse (Stmt.allWritten (parse (Source.scan source).tokens).statements ++ [stop]) =
      ⟨(parse (Source.scan source).tokens).statements, []⟩ := by
  obtain ⟨body, hbody, htrees⟩ := parse_sound h
  have hsub : ∀ s ∈ body, ∀ t ∈ s.tokens, t ∈ (Source.scan source).tokens := by
    intro s hs t ht
    have hmem : t ∈ unmarked (Source.scan source).tokens := by
      rw [hbody.tokens]
      exact List.mem_flatMap.2 ⟨s, hs, ht⟩
    exact (List.takeWhile_sublist _).subset hmem
  have hspelled : ∀ s ∈ body, ∀ t ∈ s.tokens, t.Spelled := fun s hs t ht =>
    Source.spelled_of_mem_collect (hsub s hs t ht)
  have hclean : ∀ s ∈ body, s.errors = [] := List.flatMap_eq_nil_iff.1 hbody.clean
  rw [htrees]
  constructor
  · intro hfor
    rw [hbody.tokens, Stmt.allWritten_eq_flatMap, List.flatMap_map, contents_flatMap,
      contents_flatMap]
    exact List.flatMap_congr fun s hs => (hbody.declarations s hs).contents (hclean s hs)
      (hspelled s hs) fun t ht => hfor t (hsub s hs t ht)
  · have hagain : ReadsProgram ((body.map Span.tree).map Stmt.span)
        (Stmt.allWritten (body.map Span.tree)) := by
      refine ⟨(flatMap_tokens_span _).symm, flatMap_errors_span _, ?_⟩
      refine List.forall_mem_map.2 (List.forall_mem_map.2 fun s hs => ?_)
      exact (hbody.declarations s hs).reread (hclean s hs) fun t ht => (hspelled s hs t ht).textual
    have hwhole := hagain
    rw [← unmarked_append [] hagain.unmarked hstop] at hwhole
    rw [parse_complete hwhole, map_tree_span]

-- The tree knows to which `if` an `else` belongs, and how far each operator reaches.
theorem parse_written_else :
    let program := parse (Source.scan "if (a) if (b or c == -d) f(x)(y, 1); else a = b = (c);").tokens
    contents (Stmt.allWritten program.statements) = contents (unmarked
      (Source.scan "if (a) if (b or c == -d) f(x)(y, 1); else a = b = (c);").tokens) ∧
    parse (Stmt.allWritten program.statements ++ [⟨.eof, "", .nil, 1⟩]) =
      ⟨program.statements, []⟩ := by
  have hclean : (parse (Source.scan
      "if (a) if (b or c == -d) f(x)(y, 1); else a = b = (c);").tokens).errors = [] := by
    decide +kernel
  have hstop : (⟨.eof, "", .nil, 1⟩ : Token).kind = .eof := rfl
  obtain ⟨hwritten, hagain⟩ := parse_written hclean hstop
  exact ⟨hwritten (by decide +kernel), hagain⟩

end Syntax

end Lox
