import Lox.Proofs.Syntax.Local

namespace Lox.Syntax

open Rule

-- A rule that reads tokens of certain kinds only.
def Rule.Takes (may : TokenKind → Prop) {α : Type} (r : Rule α) : Prop :=
  ∀ stop tokens, ∃ before, tokens = before ++ (r stop tokens).rest ∧ ∀ t ∈ before, may t.kind

-- Tokens that end in a semicolon, with neither an opening brace nor a `for` among them.
structure Ended (tokens : List Token) : Prop where
  last : ∃ before semicolon, tokens = before ++ [semicolon] ∧ semicolon.kind = .semicolon
  flat : ∀ t ∈ tokens, t.kind ≠ .leftBrace ∧ t.kind ≠ .forKw

-- A rule that gives up inside of such tokens if it does, and not behind them.
def Rule.Inside {α : Type} (r : Rule α) : Prop :=
  ∀ stop tokens, Ended tokens → (r stop tokens).value = none → (r stop tokens).rest ≠ []

section

variable {α β : Type} {may : TokenKind → Prop} {tokens rest : List Token}

theorem Rule.Takes.bind {r : Rule α} {f : α → Rule β} (hr : r.Takes may)
    (hf : ∀ a, (f a).Takes may) : (r >>= f).Takes may := by
  intro stop tokens
  obtain ⟨before, htokens, hbefore⟩ := hr stop tokens
  rcases hrun : r stop tokens with ⟨_ | a, middle, errors⟩ <;> rw [hrun] at htokens
  · rw [run_bind_none f hrun]
    exact ⟨before, htokens, hbefore⟩
  · obtain ⟨next, hmiddle, hnext⟩ := hf a stop middle
    rw [run_bind hrun]
    refine ⟨before ++ next, ?_, List.forall_mem_append.2 ⟨hbefore, hnext⟩⟩
    rw [List.append_assoc, htokens]
    exact congrArg (before ++ ·) hmiddle

theorem steady_takes (may : TokenKind → Prop) : Rule.Steady may (fun _ => True) (Takes may) where
  pure _ _ _ := ⟨[], rfl, List.forall_mem_nil _⟩
  bind hr hf := hr.bind hf
  here hf := Takes.bind (fun _ _ => ⟨[], rfl, List.forall_mem_nil _⟩) fun t => hf t trivial
  peek _ _ := ⟨[], rfl, List.forall_mem_nil _⟩
  taken kinds f hk hnone hsome := by
    refine Takes.bind (fun stop tokens => ?_) fun t => ?_
    · by_cases hfree : Free kinds tokens
      · rw [take?_free hfree]
        exact ⟨[], rfl, List.forall_mem_nil _⟩
      · cases tokens with
        | nil => exact absurd (free_nil kinds) hfree
        | cons t ts =>
          rw [free_cons, not_not] at hfree
          rw [take?_cons hfree]
          exact ⟨[t], rfl, List.forall_mem_singleton.2 (hk _ hfree)⟩
    · cases t with
      | none => exact hnone
      | some t => exact hsome t trivial
  takeAll kinds hk stop tokens := by
    refine ⟨tokens.takeWhile (·.kind ∈ kinds), List.takeWhile_append_dropWhile.symm, fun t ht => ?_⟩
    exact hk _ (by simpa using List.mem_takeWhile_imp ht)
  complain _ _ _ _ := ⟨[], rfl, List.forall_mem_nil _⟩
  fail _ _ _ := ⟨[], rfl, List.forall_mem_nil _⟩

theorem Ended.ne_nil (h : Ended tokens) : tokens ≠ [] := by
  obtain ⟨before, semicolon, rfl, -⟩ := h.last
  simp

theorem Ended.suffix (h : Ended tokens) (hs : rest <:+ tokens) (hne : rest ≠ []) :
    Ended rest := by
  refine ⟨?_, fun t ht => h.flat t (hs.subset ht)⟩
  obtain ⟨before, semicolon, rfl, hk⟩ := h.last
  obtain rfl | ⟨before', rfl, -⟩ := List.suffix_concat_iff.1 hs
  · exact absurd rfl hne
  · exact ⟨before', semicolon, rfl, hk⟩

-- Rules that read no semicolon leave the last one.
theorem Rule.Takes.ended {r : Rule α} (hr : r.Takes (· ≠ .semicolon)) (stop : Token)
    (h : Ended tokens) : Ended (r stop tokens).rest := by
  obtain ⟨before, htokens, hbefore⟩ := hr stop tokens
  refine h.suffix ⟨before, htokens.symm⟩ fun hnil => ?_
  obtain ⟨others, semicolon, hlast, hk⟩ := h.last
  rw [hnil, List.append_nil] at htokens
  exact hbefore semicolon (by rw [← htokens, hlast]; simp) hk

theorem inside_pure (a : α) : (pure a : Rule α).Inside := by
  intro stop tokens _ h
  cases h

theorem inside_fail (fault : SyntaxFault) : (fail fault : Rule α).Inside :=
  fun _ _ h _ => h.ne_nil

theorem Rule.Takes.inside_bind {r : Rule α} {f : α → Rule β} (hr : r.Takes (· ≠ .semicolon))
    (hf : ∀ a, (f a).Inside) : (r >>= f).Inside := by
  intro stop tokens h hnone
  have hended := hr.ended stop h
  rcases hrun : r stop tokens with ⟨_ | a, middle, errors⟩ <;> rw [hrun] at hended
  · rw [run_bind_none f hrun]
    exact hended.ne_nil
  · rw [run_bind hrun] at hnone ⊢
    exact hf a stop middle hended hnone

-- What follows may find nothing left, but must not give up then.
theorem Rule.Inside.bind {r : Rule α} {f : α → Rule β} (hr : r.Inside) (hs : r.Shrinks)
    (hf : ∀ a, (f a).Inside) (hnil : ∀ a stop, (f a stop []).value ≠ none) :
    (r >>= f).Inside := by
  intro stop tokens h hnone
  have hinside := hr stop tokens h
  have hsuffix := hs stop tokens
  rcases hrun : r stop tokens with ⟨_ | a, middle, errors⟩ <;> rw [hrun] at hinside hsuffix
  · rw [run_bind_none f hrun]
    exact hinside rfl
  · rw [run_bind hrun] at hnone ⊢
    by_cases hmiddle : middle = []
    · subst hmiddle
      exact absurd hnone (hnil a stop)
    · exact hf a stop middle (h.suffix hsuffix hmiddle) hnone

theorem Rule.Inside.bind_pure {r : Rule α} (hr : r.Inside) (g : α → β) :
    (r >>= fun a => pure (g a)).Inside := by
  intro stop tokens h hnone
  have hinside := hr stop tokens h
  rcases hrun : r stop tokens with ⟨_ | a, middle, errors⟩ <;> rw [hrun] at hinside
  · rw [run_bind_none _ hrun]
    exact hinside rfl
  · rw [run_bind hrun] at hnone
    cases hnone

theorem inside_taken (kinds : List TokenKind) {f : Option Token → Rule α}
    (hk : .semicolon ∉ kinds) (hnone : (f none).Inside)
    (hsome : ∀ t, t.kind ∈ kinds → t.kind ≠ .leftBrace → t.kind ≠ .forKw →
      (f (some t)).Inside) : (take? kinds >>= f).Inside := by
  intro stop tokens h hgives
  by_cases hfree : Free kinds tokens
  · rw [run_bind (take?_free hfree)] at hgives ⊢
    exact hnone stop tokens h hgives
  · cases tokens with
    | nil => exact absurd (free_nil kinds) hfree
    | cons t ts =>
      rw [free_cons, not_not] at hfree
      rw [run_bind (take?_cons hfree)] at hgives ⊢
      have hts : Ended ts := by
        refine h.suffix (List.suffix_cons t ts) ?_
        rintro rfl
        obtain ⟨before, semicolon, hlast, hkind⟩ := h.last
        obtain ⟨-, rfl⟩ := List.append_singleton_inj.1 (show [] ++ [t] = before ++ [semicolon] from hlast)
        exact hk (hkind ▸ hfree)
      obtain ⟨hbrace, hfor⟩ := h.flat t List.mem_cons_self
      exact hsome t hfree hbrace hfor stop ts hts hgives

theorem inside_expect (kind : TokenKind) (fault : SyntaxFault) : (expect kind fault).Inside := by
  intro stop tokens h hnone
  by_cases hfree : Free [kind] tokens
  · rw [expect, run_bind (take?_free hfree)]
    exact h.ne_nil
  · cases tokens with
    | nil => exact absurd (free_nil _) hfree
    | cons t ts =>
      rw [free_cons, not_not, List.mem_singleton] at hfree
      rw [expect_cons hfree] at hnone
      cases hnone

-- There is no opening brace to be found.
theorem inside_brace (fault : SyntaxFault) (f : Token → Rule α) :
    (expect .leftBrace fault >>= f).Inside := by
  intro stop tokens h _
  have hfree : Free [.leftBrace] tokens :=
    fun t ht hk => (h.flat t (List.mem_of_mem_head? ht)).1 (List.mem_singleton.1 hk)
  rw [run_bind_none f (expect_free hfree)]
  exact h.ne_nil

end

section

-- Expressions and what stands in parentheses hold no semicolon.
theorem steady_spares : Rule.Steady (· ≠ .semicolon) (fun _ => True) (Takes (· ≠ .semicolon)) :=
  steady_takes _

theorem ne_semicolon : ∀ kind ∈ expressionKinds, kind ≠ .semicolon := by
  decide

theorem inside_variableDeclaration (depth : Nat) : (variableDeclaration depth).Inside := by
  have hq := steady_spares
  have hend := (inside_expect .semicolon .variableEnd)
  refine (hq.expect _ (by decide) _).inside_bind fun name =>
    (hq.take? _ (by decide)).inside_bind fun t => ?_
  cases t with
  | none => exact (hq.pure none).inside_bind fun _ => hend.bind_pure _
  | some equal =>
    exact (hq.map some (hq.expression ne_semicolon depth)).inside_bind fun _ => hend.bind_pure _

theorem inside_functionDeclaration (block : Rule (List Stmt)) (depth : Nat) :
    (functionDeclaration block depth).Inside := by
  have hq := steady_spares
  refine (hq.expect _ (by decide) _).inside_bind fun name =>
    (hq.expect _ (by decide) _).inside_bind fun opening => ?_
  have hparameter := hq.expect .identifier (by decide) .parameterName
  exact (hq.commaList hparameter (by decide) _ depth).inside_bind fun parameters =>
    (hq.expect _ (by decide) _).inside_bind fun closing => inside_brace _ _

variable {statement : Rule Stmt} (hs : statement.Inside) (hshrinks : statement.Shrinks)
include hs hshrinks

theorem inside_ifStatement (depth : Nat) : (ifStatement statement depth).Inside := by
  refine (steady_spares.condition ne_semicolon _ _ depth).inside_bind fun condition =>
    hs.bind hshrinks (fun yes => ?_) fun yes stop h => by cases h
  refine inside_taken _ (by decide) (inside_pure _) fun t _ _ _ => ?_
  exact hs.bind_pure _

theorem inside_statementWith (block : Rule (List Stmt)) (depth : Nat) :
    (statementWith statement block depth).Inside := by
  have hq := steady_spares
  have hexpression := hq.expression ne_semicolon depth
  refine inside_taken _ (by decide) ?_ fun t ht hbrace hfor => ?_
  · exact hexpression.inside_bind fun _ => (inside_expect _ _).bind_pure _
  · dsimp only
    split
    · next hk => exact absurd hk hfor
    · exact inside_ifStatement hs hshrinks depth
    · exact hexpression.inside_bind fun _ => (inside_expect _ _).bind_pure _
    · exact (hq.optionalExpression ne_semicolon _ depth).inside_bind fun _ =>
        (inside_expect _ _).bind_pure _
    · exact (hq.condition ne_semicolon _ _ depth).inside_bind fun _ => hs.bind_pure _
    · exact (inside_expect _ _).bind_pure _
    · next h1 h2 h3 h4 h5 h6 =>
      simp only [List.mem_cons, List.not_mem_nil, or_false] at ht
      tauto

end

theorem inside_plainDeclaration {statement : Rule Stmt} (hs : statement.Inside)
    (block : Rule (List Stmt)) (depth : Nat) :
    (plainDeclaration statement block depth).Inside := by
  refine inside_taken _ (by decide) hs fun t _ _ _ => ?_
  dsimp only
  split
  · exact inside_functionDeclaration block depth
  · exact inside_variableDeclaration depth

theorem inside_statement (depth : Nat) : (statement depth).Inside := by
  induction depth with
  | zero => exact inside_fail _
  | succ depth ih =>
    exact inside_statementWith ih (stable_shrinks.statement_and_block depth).1 (block depth)
      (depth + 1)

end Lox.Syntax
