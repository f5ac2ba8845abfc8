import Lox.Run.Machine
import Lox.Value.Operator

namespace Lox.Run

open Eval

-- What an undefined result means at an operator that was applied to the given operands.
def operandFault (operator : TokenKind) (left right : Value) : Undefined → RuntimeFault
  | .arithmetic => if operator = .plus then .notAddable else .notNumbers
  | .comparison =>
    if operator = .equalEqual ∨ operator = .bangEqual then
      .notComparable left.kindName right.kindName
    else
      .notNumbers

def applyBinary (left : Value) (operator : Token) (right : Value) : Eval Value :=
  match Value.binary? operator.kind with
  | none => throw (.fault (.unknownBinary operator.lexeme))
  | some operation =>
    match operation left right with
    | .undefined u => fail operator (operandFault operator.kind left right u)
    | result => pure result

def applyUnary (operator : Token) (operand : Value) : Eval Value :=
  match Value.unary? operator.kind with
  | none => throw (.fault (.unknownUnary operator.lexeme))
  | some operation => pure (operation operand)

-- Calls a value, at the parenthesis that closes the arguments.
def applyCall (invoke : Function → List Value → Eval Value) (callee : Value) (paren : Token)
    (arguments : List Value) : Eval Value :=
  match callee with
  | .function f =>
    if arguments.length = f.parameters.length then invoke f arguments
    else fail paren (.wrongArity f.parameters.length arguments.length)
  | .primitive p =>
    if arguments.length = 0 then
      match p with
      | .clock => readClock
      | .inert _ _ _ => pure .nil
    else
      fail paren (.wrongArity 0 arguments.length)
  | _ => fail paren .notCallable

mutual

-- The value of an expression, given what calls of functions do. Operands come before their
-- operator and a callee before its arguments; all of them are evaluated before anything is
-- checked.
def evalWith (invoke : Function → List Value → Eval Value) : Expr → Eval Value
  | .assign name value => do
    let v ← evalWith invoke value
    assign name v
    pure v
  | .binary left operator right => do
    let l ← evalWith invoke left
    let r ← evalWith invoke right
    applyBinary l operator r
  | .call callee paren arguments => do
    let f ← evalWith invoke callee
    let args ← evalAllWith invoke arguments
    applyCall invoke f paren args
  | .grouping inner => evalWith invoke inner
  | .literal value => pure value.value
  | .logical left operator right => do
    let l ← evalWith invoke left
    -- `or` ends at a truthy left operand, `and` at a falsey one
    if l.isTruthy = decide (operator.kind = .orKw) then pure l
    else evalWith invoke right
  | .unary operator operand => do
    applyUnary operator (← evalWith invoke operand)
  | .variable name => lookup name

def evalAllWith (invoke : Function → List Value → Eval Value) : List Expr → Eval (List Value)
  | [] => pure []
  | e :: es => do
    let v ← evalWith invoke e
    let vs ← evalAllWith invoke es
    pure (v :: vs)

end

end Lox.Run
