import Lox.Proofs.Grammar.Form
import Lox.Syntax.Rule

namespace Lox.Grammar

-- The phrases that programs are made of.
inductive Phrase where
  | program
  | declaration
  | funDecl
  | varDecl
  | statement
  | exprStmt
  | forStmt
  | ifStmt
  | printStmt
  | returnStmt
  | whileStmt
  | breakStmt
  | block
  | expression
  | assignment
  | logicOr
  | logicAnd
  | equality
  | comparison
  | term
  | factor
  | unary
  | call
  | primary
  | parameters
  | arguments
deriving DecidableEq, Repr

open Form (token phrase many upTo)

-- One item, and up to 254 more with a comma before each.
def listOf (item : Form Phrase) : Form Phrase :=
  item ++ upTo (Syntax.listLimit - 1) (token .comma ++ item)

-- An operand, and any number of operators with an operand after each.
def chainOf (operand operators : Form Phrase) : Form Phrase :=
  operand ++ many (operators ++ operand)

-- The grammar of programs, without the token that marks the end.
def production : Phrase → Form Phrase
  | .program => many (phrase .declaration)
  | .declaration => phrase .funDecl ||| phrase .varDecl ||| phrase .statement
  | .funDecl => token .funKw ++ token .identifier ++ token .leftParen ++
      Form.optional (phrase .parameters) ++ token .rightParen ++ phrase .block
  | .varDecl => token .varKw ++ token .identifier ++
      Form.optional (token .equal ++ phrase .expression) ++ token .semicolon
  | .statement => phrase .exprStmt ||| phrase .forStmt ||| phrase .ifStmt ||| phrase .printStmt |||
      phrase .returnStmt ||| phrase .whileStmt ||| phrase .breakStmt ||| phrase .block
  | .exprStmt => phrase .expression ++ token .semicolon
  | .forStmt => token .forKw ++ token .leftParen ++
      (phrase .varDecl ||| phrase .exprStmt ||| token .semicolon) ++
      Form.optional (phrase .expression) ++ token .semicolon ++
      Form.optional (phrase .expression) ++ token .rightParen ++ phrase .statement
  | .ifStmt => token .ifKw ++ token .leftParen ++ phrase .expression ++ token .rightParen ++
      phrase .statement ++ Form.optional (token .elseKw ++ phrase .statement)
  | .printStmt => token .printKw ++ phrase .expression ++ token .semicolon
  | .returnStmt => token .returnKw ++ Form.optional (phrase .expression) ++ token .semicolon
  | .whileStmt => token .whileKw ++ token .leftParen ++ phrase .expression ++
      token .rightParen ++ phrase .statement
  | .breakStmt => token .breakKw ++ token .semicolon
  | .block => token .leftBrace ++ many (phrase .declaration) ++ token .rightBrace
  | .expression => phrase .assignment
  | .assignment => (token .identifier ++ token .equal ++ phrase .assignment) ||| phrase .logicOr
  | .logicOr => chainOf (phrase .logicAnd) (token .orKw)
  | .logicAnd => chainOf (phrase .equality) (token .andKw)
  | .equality => chainOf (phrase .comparison) (token .bangEqual ||| token .equalEqual)
  | .comparison => chainOf (phrase .term)
      (token .greater ||| token .greaterEqual ||| token .less ||| token .lessEqual)
  | .term => chainOf (phrase .factor) (token .minus ||| token .plus)
  | .factor => chainOf (phrase .unary) (token .slash ||| token .star)
  | .unary => ((token .bang ||| token .minus) ++ phrase .unary) ||| phrase .call
  | .call => phrase .primary ++
      many (token .leftParen ++ Form.optional (phrase .arguments) ++ token .rightParen)
  | .primary => token .number ||| token .string ||| token .trueKw ||| token .falseKw |||
      token .nilKw ||| (token .leftParen ++ phrase .expression ++ token .rightParen) |||
      token .identifier
  | .parameters => listOf (token .identifier)
  | .arguments => listOf (phrase .expression)

end Lox.Grammar
