import Lox.Literal

namespace Lox

inductive TokenKind where
  | leftParen
  | rightParen
  | leftBrace
  | rightBrace
  | comma
  | dot
  | minus
  | plus
  | semicolon
  | slash
  | star
  | bang
  | bangEqual
  | equal
  | equalEqual
  | greater
  | greaterEqual
  | less
  | lessEqual
  | identifier
  | string
  | number
  | andKw
  | breakKw
  | classKw
  | elseKw
  | falseKw
  | forKw
  | funKw
  | ifKw
  | nilKw
  | orKw
  | printKw
  | returnKw
  | superKw
  | thisKw
  | trueKw
  | varKw
  | whileKw
  | eof
deriving DecidableEq, Repr

-- One word of a program. The literal of a number or a string is its value, that of any other
-- token is nil. The line is the one on which the token ends.
structure Token where
  kind : TokenKind
  lexeme : String
  literal : Literal
  line : Int
deriving DecidableEq

-- The reserved words and their kinds. Nothing parses `class`, `super` and `this`.
def reservedWords : List (String × TokenKind) :=
  [("and", .andKw), ("break", .breakKw), ("class", .classKw), ("else", .elseKw),
    ("false", .falseKw), ("for", .forKw), ("fun", .funKw), ("if", .ifKw), ("nil", .nilKw),
    ("or", .orKw), ("print", .printKw), ("return", .returnKw), ("super", .superKw),
    ("this", .thisKw), ("true", .trueKw), ("var", .varKw), ("while", .whileKw)]

-- A word is an identifier unless it is reserved.
def wordKind (word : String) : TokenKind :=
  (reservedWords.lookup word).getD .identifier

end Lox
