import Lox.Proofs.Syntax.Depth

namespace Lox.Syntax

open Rule

section

variable {n depth depth' : Nat} (h : n ≤ depth) (h' : n ≤ depth')
include h h'

theorem agrees_optionalExpression (terminator : TokenKind) :
    (optionalExpression terminator depth).Agrees n (optionalExpression terminator depth') := by
  refine (Agrees.refl _).bind stable_shrinks.peek fun kind => ?_
  split
  · exact .refl _
  · exact (agrees_expression h h').bind (stable_shrinks.expression depth) fun _ => .refl _

theorem agrees_expressionStatement :
    (expressionStatement depth).Agrees n (expressionStatement depth') :=
  (agrees_expression h h').bind (stable_shrinks.expression depth) fun _ => .refl _

theorem agrees_variableDeclaration :
    (variableDeclaration depth).Agrees n (variableDeclaration depth') := by
  refine (Agrees.refl _).bind (stable_shrinks.expect _ _) fun name => ?_
  refine (Agrees.refl _).bind (stable_shrinks.take? _) fun t => ?_
  cases t with
  | none => exact .refl _
  | some equal =>
    exact ((agrees_expression h h').map some).bind
      (stable_shrinks.map some (stable_shrinks.expression depth)) fun _ => .refl _

theorem agrees_functionDeclaration {block block' : Rule (List Stmt)} (hb : block.Agrees n block')
    (hs : block.Shrinks) :
    (functionDeclaration block depth).Agrees n (functionDeclaration block' depth') := by
  have hparameter := stable_shrinks.expect .identifier .parameterName
  refine (Agrees.refl _).bind (stable_shrinks.expect _ _) fun name => ?_
  refine (Agrees.refl _).bind (stable_shrinks.expect _ _) fun opening => ?_
  refine (agrees_commaList (.refl _) hparameter .parameters h h').bind
    (stable_shrinks.commaList hparameter .parameters depth) fun parameters => ?_
  refine (Agrees.refl _).bind (stable_shrinks.expect _ _) fun closing => ?_
  refine (Agrees.refl _).bind (stable_shrinks.expect _ _) fun brace => ?_
  exact hb.bind hs fun _ => .refl _

theorem agrees_condition (paren close : SyntaxFault) :
    (condition paren close depth).Agrees n (condition paren close depth') :=
  (Agrees.refl _).bind (stable_shrinks.expect _ _) fun _ =>
    (agrees_expression h h').bind (stable_shrinks.expression depth) fun _ => .refl _

theorem agrees_forInitializer : (forInitializer depth).Agrees n (forInitializer depth') := by
  refine (Agrees.refl _).bind (stable_shrinks.take? _) fun t => ?_
  cases t with
  | none => exact (agrees_expressionStatement h h').map some
  | some t =>
    dsimp only
    split
    · exact (agrees_variableDeclaration h h').map some
    · exact .refl _

section

variable {statement statement' : Rule Stmt} (hs : statement.Agrees n statement')
  (hshrinks : statement.Shrinks)
include hs hshrinks

theorem agrees_ifStatement :
    (ifStatement statement depth).Agrees n (ifStatement statement' depth') := by
  refine (agrees_condition h h' _ _).bind (stable_shrinks.condition _ _ depth) fun _ =>
    hs.bind hshrinks fun _ => (Agrees.refl _).bind (stable_shrinks.take? _) fun t => ?_
  cases t with
  | none => exact .refl _
  | some t => exact hs.bind hshrinks fun _ => .refl _

theorem agrees_whileStatement :
    (whileStatement statement depth).Agrees n (whileStatement statement' depth') :=
  (agrees_condition h h' _ _).bind (stable_shrinks.condition _ _ depth) fun _ =>
    hs.bind hshrinks fun _ => .refl _

theorem agrees_forStatement :
    (forStatement statement depth).Agrees n (forStatement statement' depth') := by
  refine (Agrees.refl _).bind (stable_shrinks.expect _ _) fun opening => ?_
  refine (agrees_forInitializer h h').bind (stable_shrinks.forInitializer depth) fun _ => ?_
  refine (agrees_optionalExpression h h' _).bind (stable_shrinks.optionalExpression _ depth)
    fun _ => (Agrees.refl _).bind (stable_shrinks.expect _ _) fun _ => ?_
  refine (agrees_optionalExpression h h' _).bind (stable_shrinks.optionalExpression _ depth)
    fun _ => (Agrees.refl _).bind (stable_shrinks.expect _ _) fun _ => ?_
  exact hs.bind hshrinks fun _ => .refl _

end

theorem agrees_statementWith {nested nested' : Rule Stmt} {block block' : Rule (List Stmt)}
    (hn : ∀ m < n, nested.Agrees m nested') (hb : ∀ m < n, block.Agrees m block')
    (hs : nested.Shrinks) :
    (statementWith nested block depth).Agrees n (statementWith nested' block' depth') := by
  refine Agrees.taken _ (agrees_expressionStatement h h') fun t m hm => ?_
  have hd : m ≤ depth := by omega
  have hd' : m ≤ depth' := by omega
  dsimp only
  split
  · exact agrees_forStatement hd hd' (hn m hm) hs
  · exact agrees_ifStatement hd hd' (hn m hm) hs
  · exact (agrees_expression hd hd').bind (stable_shrinks.expression depth) fun _ => .refl _
  · exact (agrees_optionalExpression hd hd' _).bind (stable_shrinks.optionalExpression _ depth)
      fun _ => .refl _
  · exact agrees_whileStatement hd hd' (hn m hm) hs
  · exact .refl _
  · exact (hb m hm).map Stmt.block

theorem agrees_plainDeclaration {statement statement' : Rule Stmt}
    {block block' : Rule (List Stmt)} (hs : statement.Agrees n statement')
    (hb : ∀ m < n, block.Agrees m block') (hshrinks : block.Shrinks) :
    (plainDeclaration statement block depth).Agrees n
      (plainDeclaration statement' block' depth') := by
  refine Agrees.taken _ hs fun t m hm => ?_
  dsimp only
  split
  · exact agrees_functionDeclaration (by omega) (by omega) (hb m hm) hshrinks
  · exact agrees_variableDeclaration (by omega) (by omega)

end

-- A declaration reads something if there is anything left, even if it is broken.
def Rule.Consumes {α : Type} (r : Rule α) : Prop :=
  ∀ stop tokens, tokens ≠ [] → (r stop tokens).rest.length < tokens.length

theorem consumes_recovering {r : Rule Stmt} (ha : r.Advances) (hs : r.Shrinks) :
    (recovering r).Consumes := by
  intro stop tokens hne
  have hadvances := ha stop tokens
  have hle := (hs stop tokens).length_le
  unfold recovering
  rcases hrun : r stop tokens with ⟨_ | s, rest, errors⟩ <;> rw [hrun] at hadvances hle
  · by_cases hrest : rest = []
    · subst hrest
      exact List.length_pos_iff.2 hne
    · exact Nat.lt_of_lt_of_le (length_recover_lt hrest) hle
  · exact hadvances s rfl

theorem advances_statementWith {nested : Rule Stmt} {block : Rule (List Stmt)}
    (hn : nested.Shrinks) (hb : block.Shrinks) (depth : Nat) :
    (statementWith nested block depth).Advances := by
  have hq := stable_shrinks
  refine advances_taken _ ?_ fun t => ?_
  · exact (advances_expression depth).bind fun _ => (hq.expect _ _).bind fun _ => hq.pure _
  · dsimp only
    split
    · exact hq.forStatement hn depth
    · exact hq.ifStatement hn depth
    · exact (hq.expression depth).bind fun _ => (hq.expect _ _).bind fun _ => hq.pure _
    · exact (hq.optionalExpression _ depth).bind fun _ =>
        (hq.expect _ _).bind fun _ => hq.pure _
    · exact (hq.condition _ _ depth).bind fun _ => hn.bind fun _ => hq.pure _
    · exact (hq.expect _ _).bind fun _ => hq.pure _
    · exact hq.map _ hb

theorem advances_plainDeclaration {statement : Rule Stmt} {block : Rule (List Stmt)}
    (hs : statement.Advances) (hb : block.Shrinks) (depth : Nat) :
    (plainDeclaration statement block depth).Advances := by
  refine advances_taken _ hs fun t => ?_
  dsimp only
  split
  · exact stable_shrinks.functionDeclaration hb depth
  · exact stable_shrinks.variableDeclaration depth

-- A declaration inside of a block.
theorem consumes_nested {statement : Rule Stmt} {block : Rule (List Stmt)}
    (hs : statement.Shrinks) (hb : block.Shrinks) (depth : Nat) :
    (recovering (plainDeclaration (statementWith statement block depth) block depth)).Consumes :=
  consumes_recovering (advances_plainDeclaration (advances_statementWith hs hb depth) hb depth)
    (stable_shrinks.plainDeclaration (stable_shrinks.statementWith hs hb depth) hb depth)

theorem agrees_declarations {n rounds rounds' : Nat} {declaration declaration' : Rule (Option Stmt)}
    (hd : declaration.Agrees n declaration') (hc : declaration.Consumes) (braceEnds : Bool)
    (hr : n ≤ rounds) (hr' : n ≤ rounds') :
    (declarations declaration braceEnds rounds).Agrees n
      (declarations declaration' braceEnds rounds') := by
  induction n generalizing rounds rounds' with
  | zero => exact Agrees.of_nil fun stop => by cases rounds <;> cases rounds' <;> rfl
  | succ n ih =>
    obtain ⟨rounds, rfl⟩ : ∃ k, rounds = k + 1 := ⟨rounds - 1, by omega⟩
    obtain ⟨rounds', rfl⟩ : ∃ k, rounds' = k + 1 := ⟨rounds' - 1, by omega⟩
    intro stop tokens hlen
    rw [declarations, declarations, run_bind (peek_eq_some.2 ⟨rfl, rfl, rfl⟩),
      run_bind (peek_eq_some.2 ⟨rfl, rfl, rfl⟩)]
    split
    · rfl
    · next hnext =>
      have hne : tokens ≠ [] := by
        rintro rfl
        exact hnext (.inl rfl)
      have hothers := ih (hd.mono (Nat.le_succ n)) (Nat.le_of_succ_le_succ hr)
        (Nat.le_of_succ_le_succ hr')
      have hless := hc stop tokens hne
      have heq := hd stop tokens hlen
      rcases hrun : declaration stop tokens with ⟨_ | first, rest, errors⟩ <;>
        rw [hrun] at hless heq
      · rw [run_bind_none _ hrun, run_bind_none _ heq.symm]
      · dsimp only at hless
        have hrest := hothers stop rest (by omega)
        rw [run_bind hrun, run_bind heq.symm]
        simp only [Bind.bind, hrest]

theorem consumes_declaration (depth : Nat) : (declaration depth).Consumes := by
  obtain ⟨hs, hb⟩ := stable_shrinks.statement_and_block depth
  have hstatement : (statement depth).Advances := by
    cases depth with
    | zero => exact advances_fail _
    | succ depth =>
      obtain ⟨hs, hb⟩ := stable_shrinks.statement_and_block depth
      exact advances_statementWith hs hb (depth + 1)
  exact consumes_recovering (advances_plainDeclaration hstatement hb depth)
    (stable_shrinks.plainDeclaration hs hb depth)

theorem agrees_statement_and_block {n depth depth' : Nat} (h : n ≤ depth) (h' : n ≤ depth') :
    (statement depth).Agrees n (statement depth') ∧ (block depth).Agrees n (block depth') := by
  induction n generalizing depth depth' with
  | zero =>
    have hexpression : ∀ depth stop, expressionStatement depth stop [] =
        ⟨none, [], [⟨stop, .noExpression⟩]⟩ :=
      fun depth stop => run_bind_none _ (expression_free (free_nil _) depth)
    constructor
    · refine Agrees.of_nil fun stop => ?_
      cases depth <;> cases depth' <;>
        simp [statement, statementWith, run_bind (take?_free (free_nil _)), hexpression, fail]
    · exact Agrees.of_nil fun stop => by cases depth <;> cases depth' <;> rfl
  | succ n ih =>
    obtain ⟨depth, rfl⟩ : ∃ k, depth = k + 1 := ⟨depth - 1, by omega⟩
    obtain ⟨depth', rfl⟩ : ∃ k, depth' = k + 1 := ⟨depth' - 1, by omega⟩
    obtain ⟨hs, hb⟩ := ih (Nat.le_of_succ_le_succ h) (Nat.le_of_succ_le_succ h')
    obtain ⟨hshrinks, hbshrinks⟩ := stable_shrinks.statement_and_block depth
    have hbelow : ∀ m < n + 1, (block depth).Agrees m (block depth') :=
      fun m hm => hb.mono (Nat.le_of_lt_succ hm)
    have hstatement : (statement (depth + 1)).Agrees (n + 1) (statement (depth' + 1)) :=
      agrees_statementWith h h' (fun m hm => hs.mono (Nat.le_of_lt_succ hm)) hbelow hshrinks
    refine ⟨hstatement, ?_⟩
    have hplain := (agrees_plainDeclaration h h' hstatement hbelow hbshrinks).recovering
    have hconsumes := consumes_nested hshrinks hbshrinks (depth + 1)
    have hdeclaration := stable_shrinks.plainDeclaration
      (stable_shrinks.statementWith hshrinks hbshrinks (depth + 1)) hbshrinks (depth + 1)
    exact (agrees_declarations hplain hconsumes true h h').bind
      (stable_shrinks.declarations (stable_shrinks.recovering hdeclaration) true (depth + 1))
      fun _ => .refl _

-- A program is read alike with any depth and any number of rounds from the number of its tokens
-- upwards.
theorem agrees_program {n depth depth' rounds rounds' : Nat} (h : n ≤ depth) (h' : n ≤ depth')
    (hr : n ≤ rounds) (hr' : n ≤ rounds') :
    (declarations (declaration depth) false rounds).Agrees n
      (declarations (declaration depth') false rounds') := by
  obtain ⟨hs, hb⟩ := agrees_statement_and_block h h'
  have hdeclaration : (declaration depth).Agrees n (declaration depth') :=
    (agrees_plainDeclaration h h' hs (fun m hm => hb.mono (Nat.le_of_lt hm))
      (stable_shrinks.statement_and_block depth).2).recovering
  exact agrees_declarations hdeclaration (consumes_declaration depth) false hr hr'

end Lox.Syntax
