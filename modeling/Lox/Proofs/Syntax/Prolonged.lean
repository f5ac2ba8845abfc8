import Lox.Proofs.Syntax.Walk

namespace Lox.Syntax

-- The second walk ends as the first one does wherever that one comes to an end of its own.
def Walk.Prolonged {α : Type} (w w' : Walk α) : Prop :=
  ∀ tokens cursor, (w tokens cursor).1 ≠ .unfinished → w' tokens cursor = w tokens cursor

namespace Walk.Prolonged

section

variable {α β : Type} {w w' : Walk α} {k k' : α → Walk β}

theorem refl (w : Walk α) : w.Prolonged w :=
  fun _ _ _ => rfl

theorem unfinished (w : Walk α) : Walk.unfinished.Prolonged w :=
  fun _ _ h => absurd rfl h

theorem bind (hw : w.Prolonged w') (hk : ∀ a, (k a).Prolonged (k' a)) :
    (w >>= k).Prolonged (w' >>= k') := by
  intro tokens cursor h
  have hfirst := hw tokens cursor
  cases hrun : w tokens cursor with
  | mk outcome c =>
    rw [hrun] at hfirst
    simp only [Bind.bind, hrun] at h ⊢
    cases outcome with
    | value a =>
      rw [hfirst (by simp)]
      exact hk a tokens c h
    | broken => rw [hfirst (by simp)]
    | outside => rw [hfirst (by simp)]
    | unfinished => exact absurd rfl h

theorem before (w : Walk α) (hk : ∀ a, (k a).Prolonged (k' a)) :
    (w >>= k).Prolonged (w >>= k') :=
  (refl w).bind hk

theorem after (k : α → Walk β) (hw : w.Prolonged w') : (w >>= k).Prolonged (w' >>= k) :=
  hw.bind fun a => refl (k a)

theorem ite {P : Prop} [Decidable P] {l l' : Walk α} (hw : w.Prolonged w') (hl : l.Prolonged l') :
    (if P then w else l).Prolonged (if P then w' else l') := by
  split
  · exact hw
  · exact hl

theorem recorded (hw : w.Prolonged w') : (Walk.recorded w).Prolonged (Walk.recorded w') := by
  intro tokens cursor h
  have hrun := hw tokens cursor h
  simp only [Walk.recorded, hrun]

end

section

variable {α : Type} {rounds rounds' : Nat} (hr : rounds ≤ rounds')
include hr

theorem skip : (Walk.skip rounds).Prolonged (Walk.skip rounds') := by
  induction rounds generalizing rounds' with
  | zero => exact unfinished _
  | succ rounds ih =>
    obtain ⟨rounds', rfl⟩ : ∃ k, rounds' = k + 1 := ⟨rounds' - 1, by omega⟩
    have hmore := ih (Nat.le_of_succ_le_succ hr)
    refine before _ fun _ => ite (refl _) (before _ fun _ => ite (refl _) ?_)
    exact before _ fun _ => ite (refl _) (before _ fun _ => hmore)

theorem synchronize : (Walk.synchronize rounds).Prolonged (Walk.synchronize rounds') :=
  before _ fun _ => skip hr

theorem attempt {w w' : Walk Stmt} (hw : w.Prolonged w') :
    (Walk.attempt w rounds).Prolonged (Walk.attempt w' rounds') := by
  intro tokens cursor h
  have hfirst := hw tokens cursor
  cases hrun : w tokens cursor with
  | mk outcome c =>
    rw [hrun] at hfirst
    simp only [Walk.attempt, hrun] at h ⊢
    cases outcome with
    | value s => rw [hfirst (by simp)]
    | broken =>
      rw [hfirst (by simp)]
      exact (synchronize hr).after (fun _ => pure none) tokens c h
    | outside => rw [hfirst (by simp)]
    | unfinished => exact absurd rfl h

theorem itemsFrom {item item' : Walk α} (hi : item.Prolonged item') (what : ListItem)
    (count : Nat) :
    (Walk.itemsFrom item what rounds count).Prolonged
      (Walk.itemsFrom item' what rounds' count) := by
  induction rounds generalizing rounds' count with
  | zero => exact unfinished _
  | succ rounds ih =>
    obtain ⟨rounds', rfl⟩ : ∃ k, rounds' = k + 1 := ⟨rounds' - 1, by omega⟩
    have hmore := ih (Nat.le_of_succ_le_succ hr) (count + 1)
    exact before _ fun _ => hi.bind fun _ => before _ fun _ => ite (hmore.after _) (refl _)

theorem commaSeparated {item item' : Walk α} (hi : item.Prolonged item') (what : ListItem) :
    (Walk.commaSeparated item what rounds).Prolonged
      (Walk.commaSeparated item' what rounds') :=
  before _ fun _ => ite (refl _) (itemsFrom (Nat.succ_le_succ hr) hi what 0)

theorem linksFrom {operand operand' : Walk Expr} (ho : operand.Prolonged operand')
    (node : Expr → Token → Expr → Expr) (kinds : List TokenKind) (left : Expr) :
    (Walk.linksFrom operand node kinds rounds left).Prolonged
      (Walk.linksFrom operand' node kinds rounds' left) := by
  induction rounds generalizing rounds' left with
  | zero => exact unfinished _
  | succ rounds ih =>
    obtain ⟨rounds', rfl⟩ : ∃ k, rounds' = k + 1 := ⟨rounds' - 1, by omega⟩
    refine before _ fun _ => ite (before _ fun _ => ?_) (refl _)
    exact ho.bind fun _ => ih (Nat.le_of_succ_le_succ hr) _

theorem leftAssociative {operand operand' : Walk Expr} (ho : operand.Prolonged operand')
    (node : Expr → Token → Expr → Expr) (kinds : List TokenKind) :
    (Walk.leftAssociative operand node kinds rounds).Prolonged
      (Walk.leftAssociative operand' node kinds rounds') :=
  ho.bind fun left => linksFrom hr ho node kinds left

section

variable {nested nested' : Walk Expr} (hn : nested.Prolonged nested')
include hn

omit hr in
theorem primary : (Walk.primary nested).Prolonged (Walk.primary nested') := by
  refine before _ fun token => ?_
  split
  case h_6 =>
    exact before _ fun _ => ite (refl _) (before _ fun _ => ite (hn.after _) (refl _))
  all_goals exact refl _

theorem callsFrom (callee : Expr) :
    (Walk.callsFrom nested rounds callee).Prolonged
      (Walk.callsFrom nested' rounds' callee) := by
  induction rounds generalizing rounds' callee with
  | zero => exact unfinished _
  | succ rounds ih =>
    obtain ⟨rounds', rfl⟩ : ∃ k, rounds' = k + 1 := ⟨rounds' - 1, by omega⟩
    have hless := Nat.le_of_succ_le_succ hr
    refine before _ fun _ => ite ?_ (refl _)
    exact (commaSeparated hless hn .arguments).bind fun _ => before _ fun _ => ih hless _

theorem call : (Walk.call nested rounds).Prolonged (Walk.call nested' rounds') :=
  (primary hn).bind fun callee => callsFrom hr hn callee

theorem unary {depth depth' : Nat} (hd : depth ≤ depth') :
    (Walk.unary nested depth rounds).Prolonged (Walk.unary nested' depth' rounds') := by
  induction rounds generalizing rounds' with
  | zero => exact unfinished _
  | succ rounds ih =>
    obtain ⟨rounds', rfl⟩ : ∃ k, rounds' = k + 1 := ⟨rounds' - 1, by omega⟩
    have hmore := ih (Nat.le_of_succ_le_succ hr)
    exact before _ fun _ => ite (before _ fun _ => hmore.after _) (call hd hn)

theorem disjunction : (Walk.disjunction nested rounds).Prolonged
    (Walk.disjunction nested' rounds') := by
  have hfactor := leftAssociative hr (unary hr hn hr) .binary [.slash, .star]
  have hterm := leftAssociative hr hfactor .binary [.minus, .plus]
  have hcomparison := leftAssociative hr hterm .binary
    [.greater, .greaterEqual, .less, .lessEqual]
  have hequality := leftAssociative hr hcomparison .binary [.bangEqual, .equalEqual]
  exact leftAssociative hr (leftAssociative hr hequality .logical [.andKw]) .logical [.orKw]

theorem assignment : (Walk.assignment nested rounds).Prolonged
    (Walk.assignment nested' rounds') :=
  (disjunction hr hn).bind fun _ => before _ fun _ =>
    ite (before _ fun _ => hn.after _) (refl _)

end

end

section

variable {depth depth' : Nat} (hd : depth ≤ depth')
include hd

theorem expression : (Walk.expression depth).Prolonged (Walk.expression depth') := by
  induction depth generalizing depth' with
  | zero => exact unfinished _
  | succ depth ih =>
    obtain ⟨depth', rfl⟩ : ∃ k, depth' = k + 1 := ⟨depth' - 1, by omega⟩
    exact assignment hd (ih (Nat.le_of_succ_le_succ hd))

theorem optionalExpression (terminator : TokenKind) :
    (Walk.optionalExpression terminator depth).Prolonged
      (Walk.optionalExpression terminator depth') :=
  before _ fun _ => ite (refl _) ((expression hd).after _)

theorem expressionStatement :
    (Walk.expressionStatement depth).Prolonged (Walk.expressionStatement depth') :=
  (expression hd).after _

theorem variableDeclaration :
    (Walk.variableDeclaration depth).Prolonged (Walk.variableDeclaration depth') := by
  refine before _ fun _ => after _ ?_
  exact before _ fun _ => ite ((expression hd).after _) (refl _)

theorem functionDeclaration {block block' : Walk (List Stmt)} (hb : block.Prolonged block') :
    (Walk.functionDeclaration block depth).Prolonged
      (Walk.functionDeclaration block' depth') := by
  have hparameters := commaSeparated hd (refl (Walk.consume .identifier .parameterName))
    .parameters
  refine before _ fun _ => before _ fun _ => hparameters.bind fun _ => ?_
  exact before _ fun _ => before _ fun _ => hb.after _

theorem condition (paren close : SyntaxFault) :
    (Walk.condition paren close depth).Prolonged (Walk.condition paren close depth') :=
  before _ fun _ => (expression hd).after _

theorem forInitializer : (Walk.forInitializer depth).Prolonged (Walk.forInitializer depth') := by
  refine before _ fun _ => ite ((variableDeclaration hd).after _) ?_
  exact before _ fun _ => ite (refl _) ((expressionStatement hd).after _)

theorem statementWith {nested nested' : Walk Stmt} {block block' : Walk (List Stmt)}
    (hn : nested.Prolonged nested') (hb : block.Prolonged block') :
    (Walk.statementWith nested block depth).Prolonged
      (Walk.statementWith nested' block' depth') := by
  refine before _ fun token => ?_
  split
  · refine before _ fun _ => before _ fun _ => (forInitializer hd).bind fun _ => ?_
    refine (optionalExpression hd _).bind fun _ => before _ fun _ => ?_
    exact (optionalExpression hd _).bind fun _ => before _ fun _ => hn.after _
  · refine before _ fun _ => (condition hd _ _).bind fun _ => hn.bind fun _ => ?_
    exact before _ fun _ => ite (hn.after _) (refl _)
  · exact before _ fun _ => (expression hd).after _
  · exact before _ fun _ => before _ fun _ => (optionalExpression hd _).after _
  · exact before _ fun _ => (condition hd _ _).bind fun _ => hn.after _
  · exact refl _
  · exact before _ fun _ => hb.after _
  · exact expressionStatement hd

theorem plainDeclaration {statement statement' : Walk Stmt} {block block' : Walk (List Stmt)}
    (hs : statement.Prolonged statement') (hb : block.Prolonged block') :
    (Walk.plainDeclaration statement block depth).Prolonged
      (Walk.plainDeclaration statement' block' depth') := by
  refine before _ fun _ => ite (functionDeclaration hd hb) ?_
  exact before _ fun _ => ite (variableDeclaration hd) hs

theorem declarationWith {statement statement' : Walk Stmt} {block block' : Walk (List Stmt)}
    (hs : statement.Prolonged statement') (hb : block.Prolonged block') :
    (Walk.declarationWith statement block depth).Prolonged
      (Walk.declarationWith statement' block' depth') :=
  recorded (attempt hd (plainDeclaration hd hs hb))

omit hd in
theorem declarations {declaration declaration' : Walk (Option Stmt)}
    (hd : declaration.Prolonged declaration') (braceEnds : Bool) {rounds rounds' : Nat}
    (hr : rounds ≤ rounds') :
    (Walk.declarations declaration braceEnds rounds).Prolonged
      (Walk.declarations declaration' braceEnds rounds') := by
  induction rounds generalizing rounds' with
  | zero => exact unfinished _
  | succ rounds ih =>
    obtain ⟨rounds', rfl⟩ : ∃ k, rounds' = k + 1 := ⟨rounds' - 1, by omega⟩
    have hmore := ih (Nat.le_of_succ_le_succ hr)
    exact before _ fun _ => ite (refl _) (hd.bind fun _ => hmore.after _)

theorem statement_and_block : (Walk.statement depth).Prolonged (Walk.statement depth') ∧
    (Walk.block depth).Prolonged (Walk.block depth') := by
  induction depth generalizing depth' with
  | zero => exact ⟨unfinished _, unfinished _⟩
  | succ depth ih =>
    obtain ⟨depth', rfl⟩ : ∃ k, depth' = k + 1 := ⟨depth' - 1, by omega⟩
    obtain ⟨hs, hb⟩ := ih (Nat.le_of_succ_le_succ hd)
    have hnested := statementWith hd hs hb
    exact ⟨hnested, (declarations (declarationWith hd hnested hb) true hd).after _⟩

theorem declaration : (Walk.declaration depth).Prolonged (Walk.declaration depth') :=
  declarationWith hd (statement_and_block hd).1 (statement_and_block hd).2

theorem program : (Walk.program depth).Prolonged (Walk.program depth') :=
  declarations (declaration hd) false hd

end

end Walk.Prolonged

end Lox.Syntax
