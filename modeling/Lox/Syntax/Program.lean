import Lox.Syntax.Statement

namespace Lox.Syntax

-- What reading a whole program gives: the declarations that are in order, and all errors.
structure Program where
  statements : List Stmt
  errors : List SyntaxError

-- The tokens before the first one that marks the end, and that one. A list without a mark ends
-- where it ends, on the line of its last token.
def splitAtEnd (tokens : List Token) : List Token × Token :=
  let before := tokens.takeWhile (·.kind ≠ .eof)
  let line := (before.getLast?.map Token.line).getD 1
  (before, ((tokens.dropWhile (·.kind ≠ .eof)).head?).getD ⟨.eof, "", .nil, line⟩)

-- Reads a program. Whatever follows the first token that marks the end has no influence.
def parse (tokens : List Token) : Program :=
  let (before, stop) := splitAtEnd tokens
  let depth := before.length
  let reading := declarations (declaration depth) false depth stop before
  ⟨reading.value.getD [], reading.errors⟩

end Lox.Syntax
