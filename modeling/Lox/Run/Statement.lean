import Lox.Run.Expression

namespace Lox.Run

open Eval

-- Rounds of a loop, until the condition is falsey or the body ends otherwise than normally. A
-- break ends the loop only.
def iterate (condition : Eval Value) (body : Eval Completion) : (rounds : Nat) → Eval Completion
  | 0 => throw .exhausted
  | rounds + 1 => do
    if (← condition).isTruthy then
      match ← body with
      | .normal => iterate condition body rounds
      | .broke => pure .normal
      | .returned value => pure (.returned value)
    else
      pure .normal

mutual

-- Executes a statement, given what calls of functions do. A loop runs for the given number of
-- rounds at most.
def execWith (invoke : Function → List Value → Eval Value) (rounds : Nat) :
    Stmt → Eval Completion
  | .block body => do
    let scope ← newScope (← get).current
    inScope scope (execAllWith invoke rounds body)
  | .breakLoop keyword => do
    if (← get).loopDepth = 0 then fail keyword .breakOutsideLoop
    else pure .broke
  | .expression value => do
    let _ ← evalWith invoke value
    pure .normal
  | .function name parameters body => do
    define name.lexeme (.function (← newFunction name parameters body))
    pure .normal
  | .branch condition yes none => do
    if (← evalWith invoke condition).isTruthy then execWith invoke rounds yes
    else pure .normal
  | .branch condition yes (some no) => do
    if (← evalWith invoke condition).isTruthy then execWith invoke rounds yes
    else execWith invoke rounds no
  | .print value => do
    match (← evalWith invoke value).display with
    | .ok text => print text
    | .error u => throw (.fault (.displayed u))
    pure .normal
  | .returnFrom keyword value => do
    if (← get).functionDepth = 0 then fail keyword .returnOutsideFunction
    else
      match value with
      | none => pure (.returned .nil)
      | some value => return .returned (← evalWith invoke value)
  | .declare name none => do
    define name.lexeme .nil
    pure .normal
  | .declare name (some initializer) => do
    define name.lexeme (← evalWith invoke initializer)
    pure .normal
  | .loop condition body =>
    inLoop (iterate (evalWith invoke condition) (execWith invoke rounds body) rounds)
  | .jump .breakLoop => pure .broke
  | .jump .returnNil => pure (.returned .nil)

-- Executes statements in order, up to the first that ends otherwise than normally.
def execAllWith (invoke : Function → List Value → Eval Value) (rounds : Nat) :
    List Stmt → Eval Completion
  | [] => pure .normal
  | s :: ss => do
    match ← execWith invoke rounds s with
    | .normal => execAllWith invoke rounds ss
    | .broke => pure .broke
    | .returned value => pure (.returned value)

end

-- Binds the parameters of a function to its arguments, from left to right.
def bindAll (scope : ScopeId) : List Token → List Value → Eval Unit
  | name :: names, value :: values => do
    defineIn scope name.lexeme value
    bindAll scope names values
  | _, _ => pure ()

-- A call of a function with as many arguments as it has parameters. The body runs in a new scope
-- inside the one in which the function was declared, wherever the call stands.
def callWith (run : List Stmt → Eval Completion) (f : Function) (arguments : List Value) :
    Eval Value := do
  let scope ← newScope f.scope
  bindAll scope f.parameters arguments
  match ← inFunction (inScope scope (run f.body)) with
  | .normal => pure .nil
  | .returned value => pure value
  | .broke => throw (.fault (.escapedBody .breakLoop f.name.lexeme))

-- Calls of functions, nested up to `fuel` deep; each loop inside has as many rounds.
def invoke : (fuel : Nat) → Function → List Value → Eval Value
  | 0, _, _ => throw .exhausted
  | fuel + 1, f, arguments => callWith (execAllWith (invoke fuel) fuel) f arguments

def eval (fuel : Nat) (e : Expr) : Eval Value :=
  evalWith (invoke fuel) e

def exec (fuel : Nat) (s : Stmt) : Eval Completion :=
  execWith (invoke fuel) fuel s

-- Executes the statements of a program in order. Nothing may be left by a break or a return.
def execTop (fuel : Nat) : List Stmt → Eval Unit
  | [] => pure ()
  | s :: ss => do
    match ← exec fuel s with
    | .normal => execTop fuel ss
    | .broke => throw (.fault (.reachedTop .breakLoop))
    | .returned _ => throw (.fault (.reachedTop .returnNil))

end Lox.Run
