import Lox.Token

namespace Lox

inductive Expr where
  | assign (name : Token) (value : Expr)
  | binary (left : Expr) (operator : Token) (right : Expr)
  | call (callee : Expr) (paren : Token) (arguments : List Expr)
  | grouping (inner : Expr)
  | literal (value : Literal)
  | logical (left : Expr) (operator : Token) (right : Expr)
  | unary (operator : Token) (operand : Expr)
  | variable (name : Token)

-- A way to leave the running code without any check of what encloses it.
inductive Jump where
  | breakLoop
  | returnNil
deriving DecidableEq, Repr

-- A `for` loop has no form of its own: it is written with `block` and `loop`. Program text never
-- gives `jump`.
inductive Stmt where
  | block (body : List Stmt)
  | breakLoop (keyword : Token)
  | expression (value : Expr)
  | function (name : Token) (parameters : List Token) (body : List Stmt)
  | branch (condition : Expr) (yes : Stmt) (no : Option Stmt)
  | print (value : Expr)
  | returnFrom (keyword : Token) (value : Option Expr)
  | declare (name : Token) (initializer : Option Expr)
  | loop (condition : Expr) (body : Stmt)
  | jump (kind : Jump)

instance : Inhabited Expr := ⟨.literal .nil⟩

instance : Inhabited Stmt := ⟨.block []⟩

mutual

-- The literals of an expression, from left to right.
def Expr.literals : Expr → List Literal
  | .assign _ value => value.literals
  | .binary left _ right => left.literals ++ right.literals
  | .call callee _ arguments => callee.literals ++ literalsOfAll arguments
  | .grouping inner => inner.literals
  | .literal value => [value]
  | .logical left _ right => left.literals ++ right.literals
  | .unary _ operand => operand.literals
  | .variable _ => []

def Expr.literalsOfAll : List Expr → List Literal
  | [] => []
  | e :: es => e.literals ++ literalsOfAll es

end

mutual

-- The literals of a statement, from left to right.
def Stmt.literals : Stmt → List Literal
  | .block body => literalsOfAll body
  | .breakLoop _ => []
  | .expression value => value.literals
  | .function _ _ body => literalsOfAll body
  | .branch condition yes none => condition.literals ++ yes.literals
  | .branch condition yes (some no) => condition.literals ++ yes.literals ++ no.literals
  | .print value => value.literals
  | .returnFrom _ none => []
  | .returnFrom _ (some value) => value.literals
  | .declare _ none => []
  | .declare _ (some value) => value.literals
  | .loop condition body => condition.literals ++ body.literals
  | .jump _ => []

def Stmt.literalsOfAll : List Stmt → List Literal
  | [] => []
  | s :: ss => s.literals ++ literalsOfAll ss

end

end Lox
