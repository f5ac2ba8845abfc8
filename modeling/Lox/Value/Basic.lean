import Lox.Number.Shortest
import Lox.Syntax.Tree

namespace Lox

-- Scopes are named by their place in the heap that holds them.
abbrev ScopeId := Nat

-- A declaration that was executed, with the scope in which that happened. The identity tells
-- functions apart that come from one declaration.
structure Function where
  identity : Nat
  name : Token
  parameters : List Token
  body : List Stmt
  scope : ScopeId

inductive Value where
  | nil
  | bool (value : Bool)
  | number (value : Float)
  | string (value : String)
  | primitive (value : Primitive)
  | undefined (value : Undefined)
  | function (value : Function)

instance : Inhabited Value := ⟨.nil⟩

def Literal.value : Literal → Value
  | .nil => .nil
  | .bool value => .bool value
  | .number value => .number value
  | .string value => .string value
  | .primitive value => .primitive value
  | .undefined value => .undefined value

namespace Value

-- Nil and false are falsey, everything else is truthy.
def isTruthy : Value → Bool
  | .nil => false
  | .bool value => value
  | _ => true

def isUndefined : Value → Bool
  | .undefined _ => true
  | _ => false

-- The kind of a value, as the author of a program would name it.
def kindName : Value → String
  | .nil => "nil"
  | .bool _ => "boolean"
  | .number _ => "number"
  | .string _ => "string"
  | .primitive _ => "function"
  | .function _ => "function"
  | .undefined _ => "ErrorSentinel"

-- How a value is printed. An undefined result has no text.
def display : Value → Except Undefined String
  | .nil => .ok "nil"
  | .bool true => .ok "true"
  | .bool false => .ok "false"
  | .number value => .ok (Number.display value)
  | .string value => .ok value
  | .primitive value => .ok value.display
  | .function value => .ok ("<fn " ++ value.name.lexeme ++ ">")
  | .undefined value => .error value

end Value

end Lox
