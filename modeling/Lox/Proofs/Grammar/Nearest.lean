import Lox.Proofs.Grammar.Relaxed

namespace Lox.Grammar

open Syntax

-- What stands in front of the last statement of another one, and what both are together. Any other
-- statement can be put in the place of the last one.
def Leads (front : List Token) (whole : DraftStmt → DraftStmt) : Prop :=
  ∀ (ts : List Token) (s : DraftStmt), PhraseMeans action .statement ts s →
    PhraseMeans action .statement (front ++ ts) (whole s)

end Lox.Grammar
