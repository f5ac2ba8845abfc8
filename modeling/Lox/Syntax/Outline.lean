import Lox.Number.Shortest
import Lox.Syntax.Tree
import Lox.Text.LineBreak

namespace Lox

-- How a literal is written in an outline. Strings stand in quotes but are not escaped.
def Literal.outline : Literal → List Char
  | .nil => "nil".toList
  | .bool true => "true".toList
  | .bool false => "false".toList
  | .number value => (Number.display value).toList
  | .string value => '"' :: value.toList ++ ['"']
  | .primitive value => value.display.toList
  | .undefined value => value.name.toList

namespace Syntax

-- Texts with a separator between each two.
def join (separator : List Char) : List (List Char) → List Char
  | [] => []
  | [text] => text
  | text :: others => text ++ (separator ++ join separator others)

-- A form in parentheses: its parts with a space between each two.
def form (parts : List (List Char)) : List Char :=
  '(' :: join [' '] parts ++ [')']

-- A form over several lines: every line of every inner text stands on a line of its own, two
-- columns further in than the first and the last line.
def nest (opening : List Char) (inner : List (List Char)) (closing : List Char) : List Char :=
  let body := inner.flatMap fun text => (Text.lines text).map ([' ', ' '] ++ ·)
  join ['\n'] (opening :: body ++ [closing])

end Syntax

open Syntax

mutual

def Expr.outline : Expr → List Char
  | .assign name value => form ["assign".toList, name.lexeme.toList, value.outline]
  | .binary left operator right => form [operator.lexeme.toList, left.outline, right.outline]
  | .call callee _ arguments => form ("call".toList :: callee.outline :: outlines arguments)
  | .grouping inner => form ["group".toList, inner.outline]
  | .literal value => value.outline
  | .logical left operator right => form [operator.lexeme.toList, left.outline, right.outline]
  | .unary operator operand => form [operator.lexeme.toList, operand.outline]
  | .variable name => name.lexeme.toList

def Expr.outlines : List Expr → List (List Char)
  | [] => []
  | e :: es => e.outline :: outlines es

end

mutual

def Stmt.outline : Stmt → List Char
  | .block body => nest "(block".toList (outlines body) ")".toList
  | .breakLoop _ => "(break)".toList
  | .expression value => form ["expr_stmt".toList, value.outline]
  | .function name parameters body =>
    let heading := join ", ".toList (parameters.map (·.lexeme.toList))
    let opening := "(fun ".toList ++ name.lexeme.toList ++ '(' :: heading ++ ") \x7b".toList
    nest opening (outlines body) "\x7d)".toList
  | .branch condition yes none => form ["if".toList, condition.outline, yes.outline]
  | .branch condition yes (some no) =>
    form ["if".toList, condition.outline, yes.outline, "else".toList, no.outline]
  | .print value => form ["print".toList, value.outline]
  | .returnFrom _ none => form ["return".toList]
  | .returnFrom _ (some value) => form ["return".toList, value.outline]
  | .declare name none => form ["var".toList, name.lexeme.toList]
  | .declare name (some value) => form ["var".toList, name.lexeme.toList, value.outline]
  | .loop condition body => form ["while".toList, condition.outline, body.outline]
  | .jump .breakLoop => "(break)".toList
  | .jump .returnNil => "(return)".toList

def Stmt.outlines : List Stmt → List (List Char)
  | [] => []
  | s :: ss => s.outline :: outlines ss

end

namespace Syntax

-- A tree of either sort.
inductive Node where
  | expression (e : Expr)
  | statement (s : Stmt)

def Node.outline : Node → List Char
  | .expression e => e.outline
  | .statement s => s.outline

def Node.literals : Node → List Literal
  | .expression e => e.literals
  | .statement s => s.literals

-- Trees as forms in parentheses, one after the other.
def outlineOf (nodes : List Node) : String :=
  String.ofList (join ['\n'] (nodes.map Node.outline))

-- A program as forms in parentheses, one top-level statement after the other.
def outline (program : List Stmt) : String :=
  outlineOf (program.map .statement)

-- The outline of trees that hold no undefined result; otherwise the first one in them.
def outline? (nodes : List Node) : Except Undefined String :=
  match (nodes.flatMap Node.literals).findSome? Literal.undefined? with
  | some value => .error value
  | none => .ok (outlineOf nodes)

end Syntax

end Lox
