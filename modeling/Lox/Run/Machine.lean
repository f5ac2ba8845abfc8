import Lox.Run.Fault
import Lox.Value.Scope

namespace Lox.Run

-- Everything that running code can read and change. The loop depth counts the loops entered since
-- the innermost call began, the function depth the calls that have not ended. The clock gives
-- the reading that each call of it answers.
structure State where
  heap : Heap
  current : ScopeId
  loopDepth : Nat
  functionDepth : Nat
  nextIdentity : Nat
  clock : Nat → Float
  readings : Nat
  printed : String

-- Code that runs changes the state however it ends.
abbrev Eval := ExceptT Halt (StateM State)

namespace Eval

def fail (token : Token) (fault : RuntimeFault) : Eval α :=
  throw (.error ⟨token, fault⟩)

-- Runs code in a state that was changed on entry, and changes the state back however it ends.
def within (enter leave : State → State) (body : Eval α) : Eval α :=
  ExceptT.mk fun s =>
    let (result, s) := body (enter s)
    (result, leave s)

-- Runs code with another scope as the current one.
def inScope (scope : ScopeId) (body : Eval α) : Eval α := do
  let outer := (← get).current
  within ({ · with current := scope }) ({ · with current := outer }) body

-- Runs a loop, which may be broken out of from inside.
def inLoop (body : Eval α) : Eval α :=
  within (fun s => { s with loopDepth := s.loopDepth + 1 })
    (fun s => { s with loopDepth := s.loopDepth - 1 }) body

-- Runs the body of a function. The loops around the call cannot be broken out of from inside.
def inFunction (body : Eval α) : Eval α := do
  let outer := (← get).loopDepth
  within (fun s => { s with loopDepth := 0, functionDepth := s.functionDepth + 1 })
    (fun s => { s with loopDepth := outer, functionDepth := s.functionDepth - 1 }) body

-- A new scope inside the given one.
def newScope (enclosing : ScopeId) : Eval ScopeId :=
  modifyGet fun s => (s.heap.size, { s with heap := s.heap.create (some enclosing) })

def defineIn (scope : ScopeId) (name : String) (value : Value) : Eval Unit :=
  modify fun s => { s with heap := s.heap.define scope name value }

def define (name : String) (value : Value) : Eval Unit := do
  defineIn (← get).current name value

def lookup (name : Token) : Eval Value := do
  let s ← get
  match s.heap.get? s.current name.lexeme with
  | some value => pure value
  | none => fail name (.undefinedVariable name.lexeme)

def assign (name : Token) (value : Value) : Eval Unit := do
  let s ← get
  match s.heap.owner? name.lexeme s.current with
  | some owner => defineIn owner name.lexeme value
  | none => fail name (.undefinedVariable name.lexeme)

-- A function of its own identity for a declaration in the current scope.
def newFunction (name : Token) (parameters : List Token) (body : List Stmt) : Eval Function :=
  modifyGet fun s =>
    (⟨s.nextIdentity, name, parameters, body, s.current⟩,
      { s with nextIdentity := s.nextIdentity + 1 })

def print (text : String) : Eval Unit :=
  modify fun s => { s with printed := s.printed ++ text ++ "\n" }

def readClock : Eval Value :=
  modifyGet fun s => (.number (s.clock s.readings), { s with readings := s.readings + 1 })

end Eval

end Lox.Run
