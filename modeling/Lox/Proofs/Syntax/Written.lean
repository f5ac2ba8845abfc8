import Lox.Number.Shortest
import Lox.Proofs.Syntax.Textual

namespace Lox

-- The text of a token where its kind leaves no choice.
def TokenKind.spelling : TokenKind → String
  | .leftParen => "("
  | .rightParen => ")"
  | .leftBrace => "\x7b"
  | .rightBrace => "\x7d"
  | .comma => ","
  | .dot => "."
  | .minus => "-"
  | .plus => "+"
  | .semicolon => ";"
  | .slash => "/"
  | .star => "*"
  | .bang => "!"
  | .bangEqual => "!="
  | .equal => "="
  | .equalEqual => "=="
  | .greater => ">"
  | .greaterEqual => ">="
  | .less => "<"
  | .lessEqual => "<="
  | .andKw => "and"
  | .breakKw => "break"
  | .classKw => "class"
  | .elseKw => "else"
  | .falseKw => "false"
  | .forKw => "for"
  | .funKw => "fun"
  | .ifKw => "if"
  | .nilKw => "nil"
  | .orKw => "or"
  | .printKw => "print"
  | .returnKw => "return"
  | .superKw => "super"
  | .thisKw => "this"
  | .trueKw => "true"
  | .varKw => "var"
  | .whileKw => "while"
  | .identifier | .string | .number | .eof => ""

-- The token of such a kind. Trees do not know its line.
def Token.fixed (kind : TokenKind) : Token :=
  ⟨kind, kind.spelling, .nil, 1⟩

@[simp] theorem Token.kind_fixed (kind : TokenKind) : (fixed kind).kind = kind := rfl

-- Several things with a comma between each two.
def commaSeparated (parts : List (List Token)) : List Token :=
  [Token.fixed .comma].intercalate parts

-- The token of a literal that program text can give.
def Literal.written : Literal → List Token
  | .nil => [.fixed .nilKw]
  | .bool true => [.fixed .trueKw]
  | .bool false => [.fixed .falseKw]
  | .number value => [⟨.number, Number.display value, .number value, 1⟩]
  | .string value => [⟨.string, "\"" ++ value ++ "\"", .string value, 1⟩]
  | .primitive _ | .undefined _ => []

mutual

-- The tokens of an expression in the order of program text. There are no parentheses but those of
-- groups and calls.
def Expr.written : Expr → List Token
  | .assign name value => name :: .fixed .equal :: value.written
  | .binary left operator right => left.written ++ operator :: right.written
  | .call callee paren arguments =>
    callee.written ++ .fixed .leftParen :: (commaSeparated (Expr.eachWritten arguments) ++ [paren])
  | .grouping inner => .fixed .leftParen :: (inner.written ++ [.fixed .rightParen])
  | .literal value => value.written
  | .logical left operator right => left.written ++ operator :: right.written
  | .unary operator operand => operator :: operand.written
  | .variable name => [name]

def Expr.eachWritten : List Expr → List (List Token)
  | [] => []
  | e :: es => e.written :: Expr.eachWritten es

end

mutual

-- The tokens of a statement. There are no braces but those of blocks and functions, and none of
-- the words of a `for` loop.
def Stmt.written : Stmt → List Token
  | .block body => .fixed .leftBrace :: (Stmt.allWritten body ++ [.fixed .rightBrace])
  | .breakLoop keyword => [keyword, .fixed .semicolon]
  | .expression value => value.written ++ [.fixed .semicolon]
  | .function name parameters body =>
    .fixed .funKw :: name :: .fixed .leftParen :: (commaSeparated (parameters.map ([·])) ++
      .fixed .rightParen :: .fixed .leftBrace :: (Stmt.allWritten body ++ [.fixed .rightBrace]))
  | .branch condition yes none =>
    .fixed .ifKw :: .fixed .leftParen :: (condition.written ++ .fixed .rightParen :: yes.written)
  | .branch condition yes (some no) =>
    .fixed .ifKw :: .fixed .leftParen :: (condition.written ++
      .fixed .rightParen :: (yes.written ++ .fixed .elseKw :: no.written))
  | .print value => .fixed .printKw :: (value.written ++ [.fixed .semicolon])
  | .returnFrom keyword none => [keyword, .fixed .semicolon]
  | .returnFrom keyword (some value) => keyword :: (value.written ++ [.fixed .semicolon])
  | .declare name none => [.fixed .varKw, name, .fixed .semicolon]
  | .declare name (some value) =>
    .fixed .varKw :: name :: .fixed .equal :: (value.written ++ [.fixed .semicolon])
  | .loop condition body =>
    .fixed .whileKw :: .fixed .leftParen :: (condition.written ++
      .fixed .rightParen :: body.written)
  | .jump _ => []

def Stmt.allWritten : List Stmt → List Token
  | [] => []
  | s :: ss => s.written ++ Stmt.allWritten ss

end

theorem Expr.eachWritten_eq_map (es : List Expr) : Expr.eachWritten es = es.map Expr.written := by
  induction es with
  | nil => rfl
  | cons e es ih => simp [Expr.eachWritten, ih]

theorem Stmt.allWritten_eq_flatMap (ss : List Stmt) : Stmt.allWritten ss = ss.flatMap Stmt.written := by
  induction ss with
  | nil => rfl
  | cons s ss ih => simp [Stmt.allWritten, ih]

end Lox
