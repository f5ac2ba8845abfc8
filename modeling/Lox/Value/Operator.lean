import Lox.Value.Basic

namespace Lox.Value

-- Numbers add up and strings are joined. A number next to a string is joined as it is printed.
def add : Value → Value → Value
  | .number a, .number b => .number (a + b)
  | .string a, .string b => .string (a ++ b)
  | .string a, .number b => .string (a ++ Number.display b)
  | .number a, .string b => .string (Number.display a ++ b)
  | _, _ => .undefined .arithmetic

-- The other arithmetic operators and the order take numbers only. Division by zero is that of
-- IEEE 754: an infinity with the sign of the quotient, or NaN.
def arithmetic (operation : Float → Float → Float) : Value → Value → Value
  | .number a, .number b => .number (operation a b)
  | _, _ => .undefined .arithmetic

def ordering (holds : Float → Float → Bool) : Value → Value → Value
  | .number a, .number b => .bool (holds a b)
  | _, _ => .undefined .comparison

def sub : Value → Value → Value := arithmetic (· - ·)

def mul : Value → Value → Value := arithmetic (· * ·)

def div : Value → Value → Value := arithmetic (· / ·)

def less : Value → Value → Value := ordering (· < ·)

def lessEqual : Value → Value → Value := ordering (· ≤ ·)

def greater : Value → Value → Value := ordering (· > ·)

def greaterEqual : Value → Value → Value := ordering (· ≥ ·)

-- Nil may be compared with anything and equals only itself. Other values can be compared with
-- values of their own kind; callables are compared by identity.
def equal : Value → Value → Value
  | .nil, .nil => .bool true
  | .nil, _ => .bool false
  | _, .nil => .bool false
  | .number a, .number b => .bool (a == b)
  | .string a, .string b => .bool (a = b)
  | .bool a, .bool b => .bool (a = b)
  | .primitive a, .primitive b => .bool (a = b)
  | .function a, .function b => .bool (a.identity = b.identity)
  | .primitive _, .function _ => .bool false
  | .function _, .primitive _ => .bool false
  | _, _ => .undefined .comparison

def notEqual (a b : Value) : Value :=
  match equal a b with
  | .undefined u => .undefined u
  | result => .bool !result.isTruthy

-- The operation of a binary operator.
def binary? : TokenKind → Option (Value → Value → Value)
  | .minus => some sub
  | .slash => some div
  | .star => some mul
  | .plus => some add
  | .greater => some greater
  | .greaterEqual => some greaterEqual
  | .less => some less
  | .lessEqual => some lessEqual
  | .bangEqual => some notEqual
  | .equalEqual => some equal
  | _ => none

-- The operation of a prefix operator. Only a number has a negative; that of anything else is nil.
def unary? : TokenKind → Option (Value → Value)
  | .minus => some fun
    | .number a => .number (-a)
    | _ => .nil
  | .bang => some fun a => .bool !a.isTruthy
  | _ => none

end Lox.Value
