import Lox.Run.Statement

namespace Lox.Run

-- The scope that every program starts in. It is never left for good.
def globalScope : ScopeId := 0

-- The state before any program has run: the clock is the only name.
def State.initial (clock : Nat → Float) : State where
  heap := (Heap.create #[] none).define globalScope Primitive.clock.name (.primitive .clock)
  current := globalScope
  loopDepth := 0
  functionDepth := 0
  nextIdentity := 0
  clock := clock
  readings := 0
  printed := ""

-- The names of the global scope, in the order of their characters.
def State.globals (s : State) : List (String × Value) :=
  match s.heap[globalScope]? with
  | none => []
  | some scope => scope.bindings.mergeSort fun a b => a.1 ≤ b.1

-- How a run ends: with the program, with the first error, or with what no program text gives.
inductive Ending where
  | completed
  | failed (e : RuntimeError)
  | faulted (f : InternalFault)
  | exhausted
deriving DecidableEq

-- Runs a program in a state that earlier programs left. It starts outside of all loops and
-- functions and with nothing printed.
def run (fuel : Nat) (program : List Stmt) (s : State) : Ending × State :=
  let (result, s) :=
    (execTop fuel program).run { s with loopDepth := 0, functionDepth := 0, printed := "" }
  match result with
  | .ok () => (.completed, s)
  | .error (.error e) => (.failed e, s)
  | .error (.fault f) => (.faulted f, s)
  | .error .exhausted => (.exhausted, s)

end Lox.Run
