import Lox.Run.Program

namespace Lox.Run

-- Binds names to values in one scope, from left to right.
def bindNames (heap : Heap) (scope : ScopeId) : List Token → List Value → Heap
  | name :: names, value :: values =>
    bindNames (heap.define scope name.lexeme value) scope names values
  | _, _ => heap

-- The state in which a loop runs.
def State.looping (s : State) : State :=
  { s with loopDepth := s.loopDepth + 1 }

-- The state in which code in a scope of its own starts.
def State.enclosed (s : State) : State :=
  { s with heap := s.heap.create (some s.current), current := s.heap.size }

-- The state in which the body of a called function starts.
def State.entered (s : State) (f : Function) (arguments : List Value) : State :=
  { s with
    heap := bindNames (s.heap.create (some f.scope)) s.heap.size f.parameters arguments
    current := s.heap.size
    loopDepth := 0
    functionDepth := s.functionDepth + 1 }

namespace Eval

variable {α β : Type}

-- A sequence goes on from the state in which its first part ends, unless that stops the run.
theorem run_bind (m : Eval α) (f : α → Eval β) (s : State) :
    (m >>= f) s = match m s with
      | (.ok a, t) => f a t
      | (.error h, t) => (.error h, t) := by
  change (m s >>= fun (a, t) => ExceptT.bindCont f a t : Id _) = _
  rcases m s with ⟨_ | a, t⟩ <;> rfl

theorem run_bind_ok {m : Eval α} {s t : State} {a : α} (h : m s = (.ok a, t)) (f : α → Eval β) :
    (m >>= f) s = f a t := by
  rw [run_bind, h]

@[simp] theorem run_pure (a : α) (s : State) : (pure a : Eval α) s = (.ok a, s) := rfl

@[simp] theorem run_throw (h : Halt) (s : State) : (throw h : Eval α) s = (.error h, s) := rfl

@[simp] theorem run_fail (token : Token) (fault : RuntimeFault) (s : State) :
    (fail token fault : Eval α) s = (.error (.error ⟨token, fault⟩), s) := rfl

@[simp] theorem run_get_bind (f : State → Eval β) (s : State) : (get >>= f) s = f s s := rfl

@[simp] theorem run_define (name : String) (value : Value) (s : State) :
    define name value s = (.ok (), { s with heap := s.heap.define s.current name value }) := rfl

@[simp] theorem run_print (text : String) (s : State) :
    print text s = (.ok (), { s with printed := s.printed ++ text ++ "\n" }) := rfl

@[simp] theorem run_readClock (s : State) :
    readClock s =
      (.ok (.number (s.clock s.readings)), { s with readings := s.readings + 1 }) := rfl

@[simp] theorem run_newFunction (name : Token) (parameters : List Token) (body : List Stmt)
    (s : State) :
    newFunction name parameters body s =
      (.ok ⟨s.nextIdentity, name, parameters, body, s.current⟩,
        { s with nextIdentity := s.nextIdentity + 1 }) := rfl

theorem run_lookup (name : Token) (s : State) :
    lookup name s = match s.heap.get? s.current name.lexeme with
      | some value => (.ok value, s)
      | none => (.error (.error ⟨name, .undefinedVariable name.lexeme⟩), s) := by
  rw [lookup, run_get_bind]
  cases s.heap.get? s.current name.lexeme <;> rfl

theorem run_assign (name : Token) (value : Value) (s : State) :
    assign name value s = match s.heap.owner? name.lexeme s.current with
      | some owner => (.ok (), { s with heap := s.heap.define owner name.lexeme value })
      | none => (.error (.error ⟨name, .undefinedVariable name.lexeme⟩), s) := by
  rw [assign, run_get_bind]
  cases s.heap.owner? name.lexeme s.current <;> rfl

theorem run_inLoop (m : Eval α) (s : State) :
    inLoop m s =
      ((m s.looping).1, { (m s.looping).2 with loopDepth := (m s.looping).2.loopDepth - 1 }) := rfl

theorem run_bindAll (scope : ScopeId) (names : List Token) (values : List Value) (s : State) :
    bindAll scope names values s =
      (.ok (), { s with heap := bindNames s.heap scope names values }) := by
  induction names generalizing values s with
  | nil => rfl
  | cons name names ih =>
    cases values with
    | nil => rfl
    | cons value values => exact ih values _

end Eval

open Eval

-- What a call does before it looks at how the body ended.
def enter (run : List Stmt → Eval Completion) (f : Function) (arguments : List Value) :
    Eval Completion := do
  let scope ← newScope f.scope
  bindAll scope f.parameters arguments
  inFunction (inScope scope (run f.body))

-- The value of a call whose body ended in a certain way.
def leave (f : Function) : Completion → Eval Value
  | .normal => pure .nil
  | .returned value => pure value
  | .broke => throw (.fault (.escapedBody .breakLoop f.name.lexeme))

theorem callWith_eq (run : List Stmt → Eval Completion) (f : Function) (arguments : List Value) :
    callWith run f arguments = enter run f arguments >>= leave f := by
  simp only [callWith, enter, bind_assoc]
  rfl

theorem run_enter (run : List Stmt → Eval Completion) (f : Function) (arguments : List Value)
    (s : State) :
    enter run f arguments s =
      let ended := (run f.body (s.entered f arguments)).2
      ((run f.body (s.entered f arguments)).1, { ended with
        current := s.current
        loopDepth := s.loopDepth
        functionDepth := ended.functionDepth - 1 }) := by
  let opened : State := { s with heap := s.heap.create (some f.scope) }
  have hscope : newScope f.scope s = (.ok s.heap.size, opened) := rfl
  rw [enter, run_bind_ok hscope, run_bind_ok (run_bindAll ..)]
  rfl

-- A statement in a scope of its own.
def enclosed (m : Eval Completion) : Eval Completion := do
  let scope ← newScope (← get).current
  inScope scope m

theorem run_enclosed (m : Eval Completion) (s : State) :
    enclosed m s = ((m s.enclosed).1, { (m s.enclosed).2 with current := s.current }) := rfl

-- How a run ends, by what its statements answer.
def Ending.of : Except Halt Unit → Ending
  | .ok () => .completed
  | .error (.error e) => .failed e
  | .error (.fault f) => .faulted f
  | .error .exhausted => .exhausted

-- The state in which a program starts.
def State.started (s : State) : State :=
  { s with loopDepth := 0, functionDepth := 0, printed := "" }

theorem run_eq (fuel : Nat) (program : List Stmt) (s : State) :
    run fuel program s =
      (.of (execTop fuel program s.started).1, (execTop fuel program s.started).2) := by
  have hstart : (execTop fuel program).run
      { s with loopDepth := 0, functionDepth := 0, printed := "" } =
        execTop fuel program s.started := rfl
  rw [run, hstart]
  rcases execTop fuel program s.started with ⟨(e | f) | a, t⟩ <;> rfl

end Lox.Run
