import Lox.Syntax.Rule
import Lox.Syntax.Tree

namespace Lox.Syntax

open Rule

-- Rules that repeat are bounded by a number of rounds. Each round reads at least one token, so
-- any bound from the number of tokens left upwards lets a rule run to its own end.

-- One item, and another one after each comma. Items beyond the limit are complained about but
-- read.
def items (item : Rule α) (what : ListItem) : (rounds : Nat) → (count : Nat) → Rule (List α)
  | 0, _ => pure []
  | rounds + 1, count => do
    if listLimit ≤ count then
      complain (← here) (.tooMany what)
    let first ← item
    match ← take? [.comma] with
    | none => pure [first]
    | some _ => return first :: (← items item what rounds (count + 1))

-- The items of a list in parentheses, up to the closing one.
def commaList (item : Rule α) (what : ListItem) (rounds : Nat) : Rule (List α) := do
  if (← peek) = some .rightParen then pure []
  else items item what (rounds + 1) 0

-- What follows the operand `left` on one level of precedence: operators and further operands,
-- gathered to the left.
def chainFrom (operand : Rule Expr) (node : Expr → Token → Expr → Expr) (kinds : List TokenKind) :
    (rounds : Nat) → (left : Expr) → Rule Expr
  | 0, left => pure left
  | rounds + 1, left => do
    match ← take? kinds with
    | none => pure left
    | some operator =>
      let right ← operand
      chainFrom operand node kinds rounds (node left operator right)

def chain (operand : Rule Expr) (node : Expr → Token → Expr → Expr) (kinds : List TokenKind)
    (rounds : Nat) : Rule Expr := do
  chainFrom operand node kinds rounds (← operand)

-- The expressions that no operator or call is part of, unless in parentheses.
def primary (expression : Rule Expr) : Rule Expr := do
  match ← take? [.number, .string, .trueKw, .falseKw, .nilKw, .identifier, .leftParen] with
  | none => fail .noExpression
  | some token =>
    match token.kind with
    | .trueKw => pure (.literal (.bool true))
    | .falseKw => pure (.literal (.bool false))
    | .nilKw => pure (.literal .nil)
    | .identifier => pure (.variable token)
    | .leftParen =>
      let inner ← expression
      let _ ← expect .rightParen .groupEnd
      pure (.grouping inner)
    | _ => pure (.literal token.literal)

-- The argument lists after `callee`, each of which calls what stands before it.
def callsFrom (expression : Rule Expr) : (rounds : Nat) → (callee : Expr) → Rule Expr
  | 0, callee => pure callee
  | rounds + 1, callee => do
    match ← take? [.leftParen] with
    | none => pure callee
    | some _ =>
      let arguments ← commaList expression .arguments rounds
      let paren ← expect .rightParen .argumentsEnd
      callsFrom expression rounds (.call callee paren arguments)

def call (expression : Rule Expr) (rounds : Nat) : Rule Expr := do
  callsFrom expression rounds (← primary expression)

-- Any number of prefix operators before a call; the last one is the innermost.
def unary (expression : Rule Expr) (rounds : Nat) : Rule Expr := do
  let operators ← takeAll [.bang, .minus]
  let operand ← call expression rounds
  pure (operators.foldr .unary operand)

def factor (expression : Rule Expr) (rounds : Nat) : Rule Expr :=
  chain (unary expression rounds) .binary [.slash, .star] rounds

def term (expression : Rule Expr) (rounds : Nat) : Rule Expr :=
  chain (factor expression rounds) .binary [.minus, .plus] rounds

def comparison (expression : Rule Expr) (rounds : Nat) : Rule Expr :=
  chain (term expression rounds) .binary [.greater, .greaterEqual, .less, .lessEqual] rounds

def equality (expression : Rule Expr) (rounds : Nat) : Rule Expr :=
  chain (comparison expression rounds) .binary [.bangEqual, .equalEqual] rounds

def conjunction (expression : Rule Expr) (rounds : Nat) : Rule Expr :=
  chain (equality expression rounds) .logical [.andKw] rounds

def disjunction (expression : Rule Expr) (rounds : Nat) : Rule Expr :=
  chain (conjunction expression rounds) .logical [.orKw] rounds

-- The target of an assignment is read like any expression and only then checked. A target that
-- is no variable is complained about and stands for the whole.
def assignment (expression : Rule Expr) (rounds : Nat) : Rule Expr := do
  let target ← disjunction expression rounds
  match ← take? [.equal] with
  | none => pure target
  | some equal =>
    let value ← expression
    match target with
    | .variable name => pure (.assign name value)
    | _ =>
      complain equal .assignmentTarget
      pure target

-- An expression in which others are nested up to `depth` deep. Each level reads a token before
-- the next one starts, so the number of tokens left is depth enough; with none left there is no
-- expression.
def expression : (depth : Nat) → Rule Expr
  | 0 => fail .noExpression
  | depth + 1 => assignment (expression depth) depth

end Lox.Syntax
