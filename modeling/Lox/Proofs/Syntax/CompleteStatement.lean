import Lox.Proofs.Syntax.Complete
import Lox.Proofs.Syntax.Stable

namespace Lox.Syntax

open Rule

section

variable (depth : Nat) (stop : Token) (rest : List Token)

theorem complete_optionalExpression {terminator : TokenKind}
    (hstart : terminator ∉ expressionStarters) (hend : terminator ∉ Level.assignment.extenders)
    {s : Span (Option Expr)} {closing : Token} (hs : ReadsOptional s)
    (hc : closing.kind = terminator) (hbound : (s.tokens ++ closing :: rest).length ≤ depth) :
    optionalExpression terminator depth stop (s.tokens ++ closing :: rest) =
      ⟨some s.tree, closing :: rest, s.errors⟩ := by
  rw [optionalExpression, run_bind (peek_eq_some.2 ⟨rfl, rfl, rfl⟩)]
  cases hs with
  | absent => simp [hc]
  | @present s hs =>
    obtain ⟨t, ts, ht, hk⟩ := hs.head
    have hne : t.kind ≠ terminator := fun h => hstart (h ▸ hk)
    have hexpression := complete_expression depth stop s (closing :: rest) hbound hs
      (free_cons.2 (hc ▸ hend))
    rw [if_neg (by simp [ht, hne]), run_bind hexpression]
    simp

theorem complete_expressionStatement {s : Span Stmt} (hs : ReadsBare s)
    (hbound : (s.tokens ++ rest).length ≤ depth) :
    expressionStatement depth stop (s.tokens ++ rest) = ⟨some s.tree, rest, s.errors⟩ := by
  cases hs with
  | @mk value semicolon hv hs =>
    dsimp only at hbound ⊢
    rw [List.append_assoc, List.singleton_append] at hbound ⊢
    have hvalue := complete_expression depth stop value (semicolon :: rest) hbound hv
      (free_cons.2 (by rw [hs]; decide))
    rw [expressionStatement, run_bind hvalue, run_bind (expect_cons hs)]
    simp

theorem complete_condition (paren close : SyntaxFault) {s : Span Expr} (hs : ReadsCondition s)
    (hbound : (s.tokens ++ rest).length ≤ depth) :
    condition paren close depth stop (s.tokens ++ rest) = ⟨some s.tree, rest, s.errors⟩ := by
  cases hs with
  | @mk opening closing inner ho hi hc =>
    dsimp only at hbound ⊢
    rw [List.cons_append, List.append_assoc, List.singleton_append] at hbound ⊢
    rw [List.length_cons] at hbound
    have hinner := complete_expression depth stop inner (closing :: rest) (by omega) hi
      (free_cons.2 (by rw [hc]; decide))
    rw [condition, run_bind (expect_cons ho), run_bind hinner, run_bind (expect_cons hc)]
    simp

theorem complete_variableDeclaration {s : Span Stmt} (hs : ReadsVariable s)
    (hbound : (s.tokens ++ rest).length ≤ depth) :
    variableDeclaration depth stop (s.tokens ++ rest) = ⟨some s.tree, rest, s.errors⟩ := by
  cases hs with
  | @plain name semicolon hn hs =>
    rw [variableDeclaration, List.cons_append, run_bind (expect_cons hn), List.singleton_append,
      run_bind (take?_free (free_cons.2 (by simp [hs])))]
    dsimp only
    rw [pure_bind, run_bind (expect_cons hs)]
    simp
  | @initialized name equal semicolon value hn he hv hs =>
    dsimp only at hbound ⊢
    rw [List.cons_append, List.cons_append, List.append_assoc, List.singleton_append] at hbound ⊢
    rw [List.length_cons, List.length_cons] at hbound
    have hvalue := complete_expression depth stop value (semicolon :: rest) (by omega) hv
      (free_cons.2 (by rw [hs]; decide))
    rw [variableDeclaration, run_bind (expect_cons hn), run_bind (take?_cons (by simp [he]))]
    dsimp only
    rw [run_bind (run_map some hvalue), run_bind (expect_cons hs)]
    simp

theorem complete_forInitializer {s : Span (Option Stmt)} (hs : ReadsInitializer s)
    (hbound : (s.tokens ++ rest).length ≤ depth) :
    forInitializer depth stop (s.tokens ++ rest) = ⟨some s.tree, rest, s.errors⟩ := by
  cases hs with
  | @absent semicolon hs =>
    rw [forInitializer, List.singleton_append, run_bind (take?_cons (by simp [hs]))]
    simp [hs]
  | @declared keyword d hk hd =>
    dsimp only at hbound ⊢
    rw [List.cons_append, List.length_cons] at hbound
    have hdeclaration := complete_variableDeclaration depth stop rest hd (by omega)
    rw [forInitializer, List.cons_append, run_bind (take?_cons (by simp [hk]))]
    simp only [hk, if_true]
    rw [run_map some hdeclaration]
    simp
  | @bare s hs =>
    obtain ⟨t, ts, ht, hk⟩ := hs.head
    have hfree : Free [.varKw, .semicolon] (s.tokens ++ rest) := by
      rw [ht]
      exact free_cons.2 fun hb => by revert hk hb; cases t.kind <;> decide
    rw [forInitializer, run_bind (take?_free hfree)]
    dsimp only
    rw [run_map some (complete_expressionStatement _ stop rest hs hbound)]
    simp

end

-- Whatever stands for a statement is read as that statement. Where it may end with an `if`, no
-- `else` may follow.
def CompleteStatement (r : Rule Stmt) (slot : Slot) (bound : Nat) : Prop :=
  ∀ stop tail s rest, (s.tokens ++ rest).length ≤ bound → ReadsStmt slot tail s →
    (tail = .dangling → Free [.elseKw] rest) →
    r stop (s.tokens ++ rest) = ⟨some s.tree, rest, s.errors⟩

def CompleteBlock (r : Rule (List Stmt)) (bound : Nat) : Prop :=
  ∀ stop (body : List (Span Stmt)) closing rest,
    (body.flatMap Span.tokens ++ closing :: rest).length ≤ bound →
    (∀ s ∈ body, ReadsStmt .free .dangling s) → closing.kind = .rightBrace →
    r stop (body.flatMap Span.tokens ++ closing :: rest) =
      ⟨some (body.map Span.tree), rest, body.flatMap Span.errors⟩

section

variable {bound : Nat} (depth : Nat) (stop : Token) {rest : List Token} {statement : Rule Stmt}
  (hstatement : CompleteStatement statement .nested bound) (hdepth : bound ≤ depth)

include hstatement hdepth

theorem complete_ifStatement {condition : Span Expr} {yes : Span Stmt}
    (hc : ReadsCondition condition) (hy : ReadsStmt .nested .dangling yes)
    (hrest : Free [.elseKw] rest)
    (hbound : (condition.tokens ++ yes.tokens ++ rest).length ≤ bound) :
    ifStatement statement depth stop (condition.tokens ++ yes.tokens ++ rest) =
      ⟨some (.branch condition.tree yes.tree none), rest, condition.errors ++ yes.errors⟩ := by
  rw [List.append_assoc] at hbound ⊢
  have hcondition := complete_condition depth stop (yes.tokens ++ rest) .ifParen .ifEnd hc
    (Nat.le_trans hbound hdepth)
  rw [List.length_append] at hbound
  have hyes := hstatement stop _ yes rest (by omega) hy fun _ => hrest
  rw [ifStatement, run_bind hcondition, run_bind hyes, run_bind (take?_free hrest)]
  simp

theorem complete_ifStatement_else {condition : Span Expr} {yes no : Span Stmt} {other : Token}
    {tail : Tail} (hc : ReadsCondition condition) (hy : ReadsStmt .nested .closed yes)
    (he : other.kind = .elseKw) (hn : ReadsStmt .nested tail no)
    (hrest : tail = .dangling → Free [.elseKw] rest)
    (hbound : (condition.tokens ++ yes.tokens ++ other :: no.tokens ++ rest).length ≤ bound) :
    ifStatement statement depth stop
        (condition.tokens ++ yes.tokens ++ other :: no.tokens ++ rest) =
      ⟨some (.branch condition.tree yes.tree (some no.tree)), rest,
        condition.errors ++ yes.errors ++ no.errors⟩ := by
  simp only [List.append_assoc, List.cons_append] at hbound ⊢
  have hcondition := complete_condition depth stop (yes.tokens ++ other :: (no.tokens ++ rest))
    .ifParen .ifEnd hc (Nat.le_trans hbound hdepth)
  rw [List.length_append] at hbound
  have hyes := hstatement stop _ yes (other :: (no.tokens ++ rest)) (by omega) hy
    (fun h => by cases h)
  rw [List.length_append, List.length_cons] at hbound
  have hno := hstatement stop _ no rest (by omega) hn hrest
  rw [ifStatement, run_bind hcondition, run_bind hyes, run_bind (take?_cons (by simp [he]))]
  dsimp only
  rw [run_bind hno]
  simp

theorem complete_forStatement {opening semicolon closing : Token}
    {initializer : Span (Option Stmt)} {condition increment : Span (Option Expr)}
    {body : Span Stmt} {tail : Tail} (ho : opening.kind = .leftParen)
    (hi : ReadsInitializer initializer) (hc : ReadsOptional condition)
    (hs : semicolon.kind = .semicolon) (hn : ReadsOptional increment)
    (hp : closing.kind = .rightParen) (hb : ReadsStmt .nested tail body)
    (hrest : tail = .dangling → Free [.elseKw] rest)
    (hbound : (opening :: (initializer.tokens ++ condition.tokens ++
      semicolon :: (increment.tokens ++ closing :: body.tokens)) ++ rest).length ≤ bound) :
    forStatement statement depth stop (opening :: (initializer.tokens ++ condition.tokens ++
        semicolon :: (increment.tokens ++ closing :: body.tokens)) ++ rest) =
      ⟨some (forLoop initializer.tree condition.tree increment.tree body.tree), rest,
        initializer.errors ++ condition.errors ++ increment.errors ++ body.errors⟩ := by
  simp only [List.append_assoc, List.cons_append] at hbound ⊢
  rw [List.length_cons] at hbound
  have hinitializer := complete_forInitializer depth stop (condition.tokens ++ semicolon ::
    (increment.tokens ++ closing :: (body.tokens ++ rest))) hi (by omega)
  rw [List.length_append] at hbound
  have hcondition := complete_optionalExpression depth stop (increment.tokens ++ closing ::
    (body.tokens ++ rest)) (by decide) (by decide) hc hs (by omega)
  rw [List.length_append, List.length_cons] at hbound
  have hincrement := complete_optionalExpression depth stop (body.tokens ++ rest) (by decide)
    (by decide) hn hp (by omega)
  rw [List.length_append, List.length_cons] at hbound
  have hbody := hstatement stop _ body rest (by omega) hb hrest
  rw [forStatement, run_bind (expect_cons ho), run_bind hinitializer, run_bind hcondition,
    run_bind (expect_cons hs), run_bind hincrement, run_bind (expect_cons hp), run_bind hbody]
  simp

end

theorem complete_statementWith {bound : Nat} {nested : Rule Stmt} {block : Rule (List Stmt)}
    (hn : CompleteStatement nested .nested bound) (hblock : CompleteBlock block bound) :
    CompleteStatement (statementWith nested block (bound + 1)) .nested (bound + 1) := by
  intro stop tail s rest hbound h hrest
  generalize hslot : Slot.nested = slot at h
  induction h with
  | @bare s hs =>
    obtain ⟨t, ts, ht, hk⟩ := hs.head
    have hfree : Free [.forKw, .ifKw, .printKw, .returnKw, .whileKw, .breakKw, .leftBrace]
        (s.tokens ++ rest) := by
      rw [ht]
      exact free_cons.2 fun hb => by revert hk hb; cases t.kind <;> decide
    rw [statementWith, run_bind (take?_free hfree)]
    dsimp only
    rw [complete_expressionStatement _ stop rest hs hbound]
    simp
  | @print keyword semicolon value hk hv hs =>
    dsimp only at hbound ⊢
    rw [List.cons_append, List.append_assoc, List.singleton_append] at hbound ⊢
    rw [List.length_cons] at hbound
    have hvalue := complete_expression (bound + 1) stop value (semicolon :: rest) (by omega) hv
      (free_cons.2 (by rw [hs]; decide))
    rw [statementWith, run_bind (take?_cons (by simp [hk]))]
    simp only [hk]
    rw [printStatement, run_bind hvalue, run_bind (expect_cons hs)]
    simp
  | @returnFrom keyword semicolon value hk hv hs =>
    dsimp only at hbound ⊢
    rw [List.cons_append, List.append_assoc, List.singleton_append] at hbound ⊢
    rw [List.length_cons] at hbound
    have hvalue := complete_optionalExpression (bound + 1) stop rest (by decide) (by decide) hv hs
      (by omega)
    rw [statementWith, run_bind (take?_cons (by simp [hk]))]
    simp only [hk]
    rw [returnStatement, run_bind hvalue, run_bind (expect_cons hs)]
    simp
  | @breakLoop keyword semicolon hk hs =>
    rw [statementWith, List.cons_append, run_bind (take?_cons (by simp [hk]))]
    simp only [hk]
    rw [breakStatement, List.singleton_append, run_bind (expect_cons hs)]
    simp
  | @block opening closing body ho hb hc ih =>
    dsimp only at hbound ⊢
    rw [List.cons_append, List.append_assoc, List.singleton_append] at hbound ⊢
    rw [List.length_cons] at hbound
    have hbody := hblock stop body closing rest (by omega) hb hc
    rw [statementWith, run_bind (take?_cons (by simp [ho]))]
    simp only [ho]
    rw [run_map Stmt.block hbody]
    simp
  | @loop keyword condition body tail hk hc hb ih =>
    dsimp only at hbound ⊢
    rw [List.cons_append, List.append_assoc] at hbound ⊢
    rw [List.length_cons] at hbound
    have hcondition := complete_condition (bound + 1) stop (body.tokens ++ rest) .whileParen
      .whileEnd hc (by omega)
    rw [List.length_append] at hbound
    have hbody := hn stop _ body rest (by omega) hb hrest
    rw [statementWith, run_bind (take?_cons (by simp [hk]))]
    simp only [hk]
    rw [whileStatement, run_bind hcondition, run_bind hbody]
    simp
  | @forLoop keyword opening semicolon closing initializer condition increment body tail hk ho hi
      hc hs hstep hp hb ih =>
    have hfor := complete_forStatement (bound + 1) stop hn (by omega) ho hi hc hs
      hstep hp hb hrest (by simpa using hbound)
    rw [statementWith, List.cons_append, run_bind (take?_cons (by simp [hk]))]
    simp only [hk]
    rw [hfor]
    simp
  | @ifThen keyword condition yes hk hc hy ih =>
    have hif := complete_ifStatement (bound + 1) stop hn (by omega) hc hy
      (hrest rfl) (by simpa using hbound)
    rw [statementWith, List.cons_append, run_bind (take?_cons (by simp [hk]))]
    simp only [hk]
    rw [hif]
    simp
  | @ifElse keyword other condition yes no tail hk hc hy he hno ih ih' =>
    have hif := complete_ifStatement_else (bound + 1) stop hn (by omega) hc hy
      he hno hrest (by simpa using hbound)
    rw [statementWith, List.cons_append, run_bind (take?_cons (by simp [hk]))]
    simp only [hk]
    rw [hif]
    simp
  | weaken hs ih => exact ih hbound (fun h => by cases h) hslot
  | free hs ih | declared hk hd | function hk hname ho hi hp hc hs hb hl ih => cases hslot

theorem complete_parameter (bound : Nat) :
    (expect .identifier .parameterName).Complete bound
      (fun p => p.tree.kind = .identifier ∧ p = ⟨[p.tree], p.tree, []⟩) [] := by
  rintro stop s rest - ⟨hk, hp⟩ -
  rw [hp]
  exact expect_cons hk

theorem complete_plainDeclaration {bound : Nat} {statement : Rule Stmt}
    {block : Rule (List Stmt)} (hs : CompleteStatement statement .nested bound)
    (hblock : CompleteBlock block (bound - 1)) :
    CompleteStatement (plainDeclaration statement block bound) .free bound := by
  intro stop tail s rest hbound h hrest
  generalize hslot : Slot.free = slot at h
  induction h with
  | @free tail s hread ih =>
    obtain ⟨t, ts, ht, hk⟩ := hread.head
    have hfree : Free [.funKw, .varKw] (s.tokens ++ rest) := by
      rw [ht]
      exact free_cons.2 fun hb => by revert hk hb; cases t.kind <;> decide
    rw [plainDeclaration, run_bind (take?_free hfree)]
    dsimp only
    rw [hs stop tail s rest hbound hread hrest]
    simp
  | @declared keyword d hk hd =>
    dsimp only at hbound ⊢
    rw [List.cons_append, List.length_cons] at hbound
    have hdeclaration := complete_variableDeclaration bound stop rest hd (by omega)
    rw [plainDeclaration, List.cons_append, run_bind (take?_cons (by simp [hk]))]
    simp only [hk, reduceCtorEq, if_false]
    rw [hdeclaration]
    simp
  | @function keyword name opening closing brace last items parameters body hk hname ho hi hp hc
      hbrace hb hl ih =>
    simp only [List.append_assoc, List.cons_append, List.nil_append] at hbound ⊢
    simp only [List.length_cons] at hbound
    have hparameters := complete_commaList stop bound
      (brace :: (body.flatMap Span.tokens ++ last :: rest)) (complete_parameter bound)
      (fun s hs => ⟨s.tree, [], by rw [hs.2], by simp [hs.1]⟩) (by simp) (by simp) hi hp hc
      (by omega) (by omega)
    simp only [List.length_append, List.length_cons] at hbound
    have hbody := hblock stop body last rest
      (by simp only [List.length_append, List.length_cons]; omega) hb hl
    rw [plainDeclaration, run_bind (take?_cons (by simp [hk]))]
    simp only [hk, if_true]
    rw [functionDeclaration, run_bind (expect_cons hname), run_bind (expect_cons ho),
      run_bind hparameters, run_bind (expect_cons hc), run_bind (expect_cons hbrace),
      run_bind hbody]
    simp
  | weaken hs ih => exact ih hbound (fun h => by cases h) hslot
  | _ => cases hslot

theorem run_recovering {r : Rule Stmt} {stop : Token} {tokens rest : List Token} {s : Stmt}
    {errors : List SyntaxError} (h : r stop tokens = ⟨some s, rest, errors⟩) :
    recovering r stop tokens = ⟨some (some s), rest, errors⟩ := by
  rw [recovering, h]

theorem run_recovering_none {r : Rule Stmt} {stop : Token} {tokens rest : List Token}
    {errors : List SyntaxError} (h : r stop tokens = ⟨none, rest, errors⟩) :
    recovering r stop tokens = ⟨some none, recover rest, errors⟩ := by
  rw [recovering, h]

-- No declaration starts with an `else` that would belong to the one before it.
theorem free_else_append {rest : List Token} (hrest : Free [.elseKw] rest)
    {body : List (Span Stmt)} (hb : ∀ s ∈ body, ReadsStmt .free .dangling s) :
    Free [.elseKw] (body.flatMap Span.tokens ++ rest) := by
  cases body with
  | nil => exact hrest
  | cons other body =>
    obtain ⟨u, us, hu, hku⟩ := (hb other (by simp)).head
    rw [List.flatMap_cons, hu]
    exact free_cons.2 fun h => hku (by revert h; cases u.kind <;> decide)

-- Nor does it start with a token that ends declarations. So declarations are read as what they stand
-- for in front of whatever follows them, and reading goes on with that.
theorem declarations_append {bound : Nat} {declaration : Rule Stmt}
    (hd : CompleteStatement declaration .free bound) (braceEnds : Bool) (rounds : Nat)
    (stop : Token) {rest : List Token} {body : List (Span Stmt)}
    (hb : ∀ s ∈ body, ReadsStmt .free .dangling s) (hrest : Free [.elseKw] rest)
    (hbound : (body.flatMap Span.tokens ++ rest).length ≤ bound) :
    declarations (recovering declaration) braceEnds (body.length + rounds) stop
        (body.flatMap Span.tokens ++ rest) =
      let others := declarations (recovering declaration) braceEnds rounds stop rest
      ⟨others.value.map (body.map Span.tree ++ ·), others.rest,
        body.flatMap Span.errors ++ others.errors⟩ := by
  induction body with
  | nil => simp
  | cons s body ih =>
    have hread := hb s (by simp)
    obtain ⟨t, ts, ht, hk⟩ := hread.head
    rw [List.flatMap_cons, List.append_assoc] at hbound ⊢
    have hothers : ∀ x ∈ body, ReadsStmt .free .dangling x := fun x hx => hb x (by simp [hx])
    have hfirst := run_recovering (hd stop _ s _ hbound hread fun _ => free_else_append hrest hothers)
    rw [List.length_append] at hbound
    have hbrace : t.kind ≠ .rightBrace := fun h => hk (by rw [h]; decide)
    rw [List.length_cons, Nat.add_right_comm, declarations,
      run_bind (peek_eq_some.2 ⟨rfl, rfl, rfl⟩), if_neg (by simp [ht, hbrace]), run_bind hfirst]
    simp only [Bind.bind, ih hothers (by omega)]
    cases (declarations (recovering declaration) braceEnds rounds stop rest).value <;> simp

theorem length_le_flatMap {slot : Slot} {tail : Tail} {body : List (Span Stmt)}
    (hb : ∀ s ∈ body, ReadsStmt slot tail s) :
    body.length ≤ (body.flatMap Span.tokens).length := by
  induction body with
  | nil => exact Nat.le_refl 0
  | cons s body ih =>
    have hpos : 0 < s.tokens.length := List.length_pos_iff.2 (hb s (by simp)).ne_nil
    have hothers := ih fun x hx => hb x (by simp [hx])
    rw [List.flatMap_cons, List.length_cons, List.length_append]
    omega

theorem complete_declarations {bound : Nat} {declaration : Rule Stmt}
    (hd : CompleteStatement declaration .free bound) (braceEnds : Bool) (rounds : Nat)
    (stop : Token) (rest : List Token) {body : List (Span Stmt)}
    (hb : ∀ s ∈ body, ReadsStmt .free .dangling s)
    (hrest : rest = [] ∨ braceEnds = true ∧ ∃ closing others, rest = closing :: others ∧
      closing.kind = .rightBrace)
    (hbound : (body.flatMap Span.tokens ++ rest).length ≤ bound)
    (hrounds : (body.flatMap Span.tokens ++ rest).length ≤ rounds) :
    declarations (recovering declaration) braceEnds rounds stop (body.flatMap Span.tokens ++ rest) =
      ⟨some (body.map Span.tree), rest, body.flatMap Span.errors⟩ := by
  have hle := length_le_flatMap hb
  rw [List.length_append] at hrounds
  obtain ⟨others, rfl⟩ : ∃ k, rounds = body.length + k := ⟨rounds - body.length, by omega⟩
  have hend : declarations (recovering declaration) braceEnds others stop rest =
      ⟨some [], rest, []⟩ := by
    cases others with
    | zero => rfl
    | succ others =>
      rw [declarations, run_bind (peek_eq_some.2 ⟨rfl, rfl, rfl⟩)]
      obtain rfl | ⟨hbrace, closing, more, rfl, hc⟩ := hrest
      · simp
      · simp [hbrace, hc]
  have hfree : Free [.elseKw] rest := by
    obtain rfl | ⟨-, closing, more, rfl, hc⟩ := hrest
    · exact free_nil _
    · exact free_cons.2 (by rw [hc]; decide)
  rw [declarations_append hd braceEnds others stop hb hfree hbound, hend]
  simp

theorem complete_statement_and_block (depth : Nat) :
    CompleteStatement (statement depth) .nested depth ∧ CompleteBlock (block depth) depth := by
  induction depth with
  | zero =>
    refine ⟨fun stop tail s rest hbound h => ?_, fun stop body closing rest hbound => ?_⟩
    · have hpos : 0 < s.tokens.length := List.length_pos_iff.2 h.ne_nil
      rw [List.length_append] at hbound
      omega
    · rw [List.length_append, List.length_cons] at hbound
      omega
  | succ depth ih =>
    have hstatement : CompleteStatement (statement (depth + 1)) .nested (depth + 1) :=
      complete_statementWith ih.1 ih.2
    refine ⟨hstatement, fun stop body closing rest hbound hb hc => ?_⟩
    have hbody := complete_declarations (complete_plainDeclaration hstatement ih.2) true (depth + 1)
      stop (closing :: rest) hb (.inr ⟨rfl, closing, rest, rfl, hc⟩) hbound hbound
    change blockWith (declarationWith (statement (depth + 1)) (block depth) (depth + 1))
      (depth + 1) stop _ = _
    rw [blockWith, declarationWith_eq, run_bind hbody, run_bind (expect_cons hc)]
    simp

theorem complete_program (depth : Nat) (stop : Token) {body : List (Span Stmt)}
    (hb : ∀ s ∈ body, ReadsStmt .free .dangling s)
    (hbound : (body.flatMap Span.tokens).length ≤ depth) :
    declarations (declaration depth) false depth stop (body.flatMap Span.tokens) =
      ⟨some (body.map Span.tree), [], body.flatMap Span.errors⟩ := by
  obtain ⟨hs, hblock⟩ := complete_statement_and_block depth
  have hblock' : CompleteBlock (block depth) (depth - 1) :=
    fun stop body closing rest hlen => hblock stop body closing rest (by omega)
  have hrun := complete_declarations (complete_plainDeclaration hs hblock') false depth stop [] hb
    (.inl rfl) (by simpa using hbound) (by simpa using hbound)
  rwa [List.append_nil] at hrun

end Lox.Syntax
