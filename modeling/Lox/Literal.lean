namespace Lox

-- What an operator answers for operands that it is not defined for. It is never a value of a
-- program; running code turns it into an error before it can be stored or shown.
inductive Undefined where
  | arithmetic
  | comparison
deriving DecidableEq, Repr

def Undefined.name : Undefined → String
  | .arithmetic => "<ArithmeticError>"
  | .comparison => "<ComparisonError>"

-- A callable without parameters that no program text declares: the clock, or one that is handed
-- in from outside and answers nil. Two of those are the same if their descriptions are.
inductive Primitive where
  | clock
  | inert (name : String) (identity : Int) (native : Bool)
deriving DecidableEq, Repr

def Primitive.name : Primitive → String
  | .clock => "clock"
  | .inert name _ _ => name

-- Native callables do not show their names.
def Primitive.display : Primitive → String
  | .inert name _ false => "<fn " ++ name ++ ">"
  | _ => "<native fn>"

-- What a literal in a tree can stand for. Program text gives the first four; trees made by
-- other means can hold the rest. A function that a program declares stands in no tree: it holds on
-- to the scope in which its declaration ran, and there are scopes only while programs run.
inductive Literal where
  | nil
  | bool (value : Bool)
  | number (value : Float)
  | string (value : String)
  | primitive (value : Primitive)
  | undefined (value : Undefined)
deriving DecidableEq

def Literal.undefined? : Literal → Option Undefined
  | .undefined value => some value
  | _ => none

end Lox
