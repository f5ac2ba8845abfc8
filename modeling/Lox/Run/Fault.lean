import Lox.Diagnostic
import Lox.Value.Basic

namespace Lox.Run

-- What can go wrong in a program that is running.
inductive RuntimeFault where
  | undefinedVariable (name : String)
  | notAddable
  | notNumbers
  | notComparable (left right : String)
  | breakOutsideLoop
  | returnOutsideFunction
  | notCallable
  | wrongArity (expected given : Nat)
deriving DecidableEq, Repr

def RuntimeFault.message : RuntimeFault → String
  | .undefinedVariable name => "Undefined variable '" ++ name ++ "'."
  | .notAddable => "Operands must be two numbers or strings."
  | .notNumbers => "Operands must be numbers."
  | .notComparable left right => "Cannot compare " ++ left ++ " with " ++ right ++ "."
  | .breakOutsideLoop => "Cannot break outside of a loop."
  | .returnOutsideFunction => "Cannot return from top-level code."
  | .notCallable => "Can only call functions."
  | .wrongArity expected given =>
    "Expected " ++ toString expected ++ " arguments but got " ++ toString given ++ "."

structure RuntimeError where
  token : Token
  fault : RuntimeFault
deriving DecidableEq

def RuntimeError.diagnostic (e : RuntimeError) : Diagnostic :=
  ⟨.running, e.token.line, some e.token, e.fault.message⟩

-- How a statement ends that does not stop the whole run.
inductive Completion where
  | normal
  | broke
  | returned (value : Value)

-- What only trees can bring about that no program text gives.
inductive InternalFault where
  | displayed (value : Undefined)
  | unknownBinary (operator : String)
  | unknownUnary (operator : String)
  | reachedTop (signal : Jump)
  | escapedBody (signal : Jump) (name : String)
deriving DecidableEq, Repr

def signalName : Jump → String
  | .breakLoop => "BreakLoop()"
  | .returnNil => "ReturnValue(value=None)"

def InternalFault.message : InternalFault → String
  | .displayed value => "Attempted to display the error sentinel " ++ value.name ++ "."
  | .unknownBinary operator => "Unknown binary operator '" ++ operator ++ "'."
  | .unknownUnary operator => "Unknown unary operator '" ++ operator ++ "'."
  | .reachedTop signal => signalName signal ++ " reached the top level."
  | .escapedBody signal name => signalName signal ++ " escaped the body of '" ++ name ++ "'."

-- What stops a run before its end: an error of the program, a fault of the tree, or the end of
-- the calls and rounds that were allowed.
inductive Halt where
  | error (e : RuntimeError)
  | fault (f : InternalFault)
  | exhausted
deriving DecidableEq

end Lox.Run
