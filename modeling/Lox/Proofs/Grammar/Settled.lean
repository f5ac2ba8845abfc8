import Lox.Proofs.Grammar.Nearest
import Lox.Proofs.Grammar.Recognized

namespace Lox.Syntax

-- An expression that is no assignment.
def DraftExpr.Operand (e : DraftExpr) : Prop :=
  ∀ target equal value, e ≠ .assign target equal value

section

variable {target : DraftExpr} (h : ∀ name, target ≠ .variable name) (equal : Token)
  (value : DraftExpr)

include h

end

end Lox.Syntax

namespace Lox.Grammar

open Syntax

-- The tokens stand for a tree, with so many errors in them.
def StandFor {α : Type} (P : Span α → Prop) (ts : List Token) (tree : α) (faults : Nat) : Prop :=
  ∃ s, P s ∧ s.tokens = ts ∧ s.tree = tree ∧ s.errors.length = faults

-- The tokens stand for an expression of a level other than that of assignments.
def StandForOperand (level : Level) (ts : List Token) (e : DraftExpr) : Prop :=
  StandFor (Reads level) ts e.settled e.faults ∧ e.Operand

-- Whether an `else` after a statement would belong to it.
def tailOf (s : DraftStmt) : Tail :=
  if s.isOpen then .dangling else .closed

theorem StandForOperand.of_call {ts : List Token} {e : DraftExpr}
    (h : StandForOperand .call ts e) : StandForOperand .unary ts e := by
  obtain ⟨⟨s, hs, hrest⟩, hoperand⟩ := h
  exact ⟨⟨s, hs.of_call, hrest⟩, hoperand⟩

end Lox.Grammar
