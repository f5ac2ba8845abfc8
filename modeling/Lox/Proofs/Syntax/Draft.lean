import Lox.Syntax.Statement
import Mathlib.Algebra.Ring.Nat

namespace Lox.Syntax

-- An expression in which anything may stand before an `=`, and any number of items in a list.
inductive DraftExpr where
  | assign (target : DraftExpr) (equal : Token) (value : DraftExpr)
  | binary (left : DraftExpr) (operator : Token) (right : DraftExpr)
  | call (callee : DraftExpr) (paren : Token) (arguments : List DraftExpr)
  | grouping (inner : DraftExpr)
  | literal (value : Literal)
  | logical (left : DraftExpr) (operator : Token) (right : DraftExpr)
  | unary (operator : Token) (operand : DraftExpr)
  | variable (name : Token)

-- A statement of such expressions, with `for` loops as they are written.
inductive DraftStmt where
  | block (body : List DraftStmt)
  | breakLoop (keyword : Token)
  | expression (value : DraftExpr)
  | function (name : Token) (parameters : List Token) (body : List DraftStmt)
  | branch (condition : DraftExpr) (yes : DraftStmt) (no : Option DraftStmt)
  | forLoop (initializer : Option DraftStmt) (condition increment : Option DraftExpr)
      (body : DraftStmt)
  | print (value : DraftExpr)
  | returnFrom (keyword : Token) (value : Option DraftExpr)
  | declare (name : Token) (initializer : Option DraftExpr)
  | loop (condition : DraftExpr) (body : DraftStmt)

-- How many items of a list are beyond the limit.
@[irreducible] def beyond {α : Type} (items : List α) : Nat :=
  items.length - listLimit

-- The expression that a draft comes to: a target that is no variable stands for its assignment.
def DraftExpr.settled : DraftExpr → Expr
  | .assign (.variable name) _ value => .assign name value.settled
  | .assign target _ _ => target.settled
  | .binary left operator right => .binary left.settled operator right.settled
  | .call callee paren arguments => .call callee.settled paren (arguments.map DraftExpr.settled)
  | .grouping inner => .grouping inner.settled
  | .literal value => .literal value
  | .logical left operator right => .logical left.settled operator right.settled
  | .unary operator operand => .unary operator operand.settled
  | .variable name => .variable name

-- How many assignments in it have no variable for their target, and how many items of its lists
-- are beyond the limit. What a discarded value contains counts as well.
def DraftExpr.faults : DraftExpr → Nat
  | .assign (.variable _) _ value => value.faults
  | .assign target _ value => target.faults + value.faults + 1
  | .binary left _ right | .logical left _ right => left.faults + right.faults
  | .call callee _ arguments =>
    callee.faults + (arguments.map DraftExpr.faults).sum + beyond arguments
  | .grouping inner | .unary _ inner => inner.faults
  | .literal _ | .variable _ => 0

def DraftExpr.faultsOf (e : Option DraftExpr) : Nat :=
  (e.map DraftExpr.faults).getD 0

def DraftStmt.settled : DraftStmt → Stmt
  | .block body => .block (body.map DraftStmt.settled)
  | .breakLoop keyword => .breakLoop keyword
  | .expression value => .expression value.settled
  | .function name parameters body => .function name parameters (body.map DraftStmt.settled)
  | .branch condition yes none => .branch condition.settled yes.settled none
  | .branch condition yes (some no) => .branch condition.settled yes.settled (some no.settled)
  | .forLoop none condition increment body =>
    Syntax.forLoop none (condition.map DraftExpr.settled) (increment.map DraftExpr.settled)
      body.settled
  | .forLoop (some initializer) condition increment body =>
    Syntax.forLoop (some initializer.settled) (condition.map DraftExpr.settled)
      (increment.map DraftExpr.settled) body.settled
  | .print value => .print value.settled
  | .returnFrom keyword value => .returnFrom keyword (value.map DraftExpr.settled)
  | .declare name initializer => .declare name (initializer.map DraftExpr.settled)
  | .loop condition body => .loop condition.settled body.settled

def DraftStmt.faults : DraftStmt → Nat
  | .block body => (body.map DraftStmt.faults).sum
  | .breakLoop _ => 0
  | .expression value | .print value => value.faults
  | .function _ parameters body => beyond parameters + (body.map DraftStmt.faults).sum
  | .branch condition yes none => condition.faults + yes.faults
  | .branch condition yes (some no) => condition.faults + yes.faults + no.faults
  | .forLoop none condition increment body =>
    DraftExpr.faultsOf condition + DraftExpr.faultsOf increment + body.faults
  | .forLoop (some initializer) condition increment body =>
    initializer.faults + DraftExpr.faultsOf condition + DraftExpr.faultsOf increment + body.faults
  | .returnFrom _ value | .declare _ value => DraftExpr.faultsOf value
  | .loop condition body => condition.faults + body.faults

-- Whether a statement ends with an `if` to which an `else` after it could belong.
def DraftStmt.isOpen : DraftStmt → Bool
  | .branch _ _ none => true
  | .branch _ _ (some no) => no.isOpen
  | .forLoop _ _ _ body | .loop _ body => body.isOpen
  | _ => false

-- Every `else` belongs to the nearest `if` before it.
def DraftStmt.Nearest : DraftStmt → Prop
  | .block body | .function _ _ body => ∀ s ∈ body, s.Nearest
  | .branch _ yes none => yes.Nearest
  | .branch _ yes (some no) => yes.isOpen = false ∧ yes.Nearest ∧ no.Nearest
  | .forLoop _ _ _ body | .loop _ body => body.Nearest
  | _ => True

section

variable {condition : DraftExpr} {yes no body : DraftStmt} {parts : List DraftStmt}

end

end Lox.Syntax
