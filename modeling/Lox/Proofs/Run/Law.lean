import Lox.Proofs.Run.Running

namespace Lox.Run

open Eval

-- An error that depends on neither a name nor how many loops and calls there are around it.
inductive RuntimeFault.Ordinary : RuntimeFault → Prop
  | notAddable : Ordinary .notAddable
  | notNumbers : Ordinary .notNumbers
  | notComparable (left right : Value) : Ordinary (.notComparable left.kindName right.kindName)
  | notCallable : Ordinary .notCallable
  | wrongArity (expected given : Nat) : Ordinary (.wrongArity expected given)

-- Code that runs outside of all loops or functions fails in place of what it would do inside.
def checkLoop (keyword : Token) (m : Eval Completion) : Eval Completion := do
  if (← get).loopDepth = 0 then fail keyword .breakOutsideLoop else m

def checkFunction (keyword : Token) (m : Eval Completion) : Eval Completion := do
  if (← get).functionDepth = 0 then fail keyword .returnOutsideFunction else m

-- A property of running code that holds of the steps from which expressions are put together, and of
-- code that goes on with other code if it holds of both.
structure EvalLaw (Q : {α : Type} → Eval α → Prop) : Prop where
  pure : ∀ {α : Type} (a : α), Q (pure a : Eval α)
  bind : ∀ {α β : Type} {m : Eval α} {f : α → Eval β}, Q m → (∀ a, Q (f a)) → Q (m >>= f)
  fail : ∀ {α : Type} token {fault : RuntimeFault}, fault.Ordinary → Q (fail token fault : Eval α)
  fault : ∀ {α : Type} (f : InternalFault), Q (throw (.fault f) : Eval α)
  exhausted : ∀ {α : Type}, Q (throw .exhausted : Eval α)
  lookup : ∀ name, Q (lookup name)
  assign : ∀ name value, Q (assign name value)
  readClock : Q readClock

-- A property that also holds of the steps of statements and calls, and of what is put together from
-- code with it.
structure Law (Q : {α : Type} → Eval α → Prop) : Prop extends EvalLaw Q where
  define : ∀ name value, Q (define name value)
  newFunction : ∀ name parameters body, Q (newFunction name parameters body)
  print : ∀ text, Q (print text)
  checkLoop : ∀ keyword {m : Eval Completion}, Q m → Q (checkLoop keyword m)
  checkFunction : ∀ keyword {m : Eval Completion}, Q m → Q (checkFunction keyword m)
  inLoop : ∀ {m : Eval Completion}, Q m → Q (inLoop m)
  enclosed : ∀ {m : Eval Completion}, Q m → Q (enclosed m)
  enter : ∀ {run : List Stmt → Eval Completion} f arguments,
    Q (run f.body) → Q (enter run f arguments)

theorem ordinary_operandFault (operator : TokenKind) (left right : Value) (u : Undefined) :
    (operandFault operator left right u).Ordinary := by
  cases u with
  | arithmetic =>
    rw [operandFault]
    split
    · exact .notAddable
    · exact .notNumbers
  | comparison =>
    rw [operandFault]
    split
    · exact .notComparable left right
    · exact .notNumbers

namespace EvalLaw

variable {Q : {α : Type} → Eval α → Prop} (hq : EvalLaw Q)
include hq

theorem applyBinary (left : Value) (operator : Token) (right : Value) :
    Q (applyBinary left operator right) := by
  unfold Run.applyBinary
  cases Value.binary? operator.kind with
  | none => exact hq.fault _
  | some operation =>
    dsimp only
    split
    · exact hq.fail operator (ordinary_operandFault operator.kind left right _)
    · exact hq.pure _

theorem applyUnary (operator : Token) (operand : Value) : Q (applyUnary operator operand) := by
  unfold Run.applyUnary
  cases Value.unary? operator.kind with
  | none => exact hq.fault _
  | some operation => exact hq.pure _

theorem applyCall {invoke : Function → List Value → Eval Value}
    (hi : ∀ f arguments, Q (invoke f arguments)) (callee : Value) (paren : Token)
    (arguments : List Value) : Q (applyCall invoke callee paren arguments) := by
  unfold Run.applyCall
  cases callee with
  | function f =>
    dsimp only
    split
    · exact hi f arguments
    · exact hq.fail paren (.wrongArity _ _)
  | primitive p =>
    dsimp only
    split
    · cases p with
      | clock => exact hq.readClock
      | inert name identity native => exact hq.pure _
    · exact hq.fail paren (.wrongArity _ _)
  | _ => exact hq.fail paren .notCallable

mutual

theorem evalWith {invoke : Function → List Value → Eval Value}
    (hi : ∀ f arguments, Q (invoke f arguments)) (e : Expr) : Q (evalWith invoke e) := by
  cases e with
  | assign name value =>
    exact hq.bind (evalWith hi value) fun v => hq.bind (hq.assign name v) fun _ => hq.pure v
  | binary left operator right =>
    exact hq.bind (evalWith hi left) fun l => hq.bind (evalWith hi right) fun r =>
      hq.applyBinary l operator r
  | call callee paren arguments =>
    exact hq.bind (evalWith hi callee) fun f => hq.bind (evalAllWith hi arguments) fun args =>
      hq.applyCall hi f paren args
  | grouping inner => exact evalWith hi inner
  | literal value => exact hq.pure _
  | logical left operator right =>
    refine hq.bind (evalWith hi left) fun l => ?_
    split
    · exact hq.pure l
    · exact evalWith hi right
  | unary operator operand =>
    exact hq.bind (evalWith hi operand) fun v => hq.applyUnary operator v
  | «variable» name => exact hq.lookup name

theorem evalAllWith {invoke : Function → List Value → Eval Value}
    (hi : ∀ f arguments, Q (invoke f arguments)) (es : List Expr) : Q (evalAllWith invoke es) := by
  cases es with
  | nil => exact hq.pure []
  | cons e es =>
    exact hq.bind (evalWith hi e) fun v => hq.bind (evalAllWith hi es) fun vs => hq.pure (v :: vs)

end

theorem iterate {condition : Eval Value} {body : Eval Completion} (hc : Q condition) (hb : Q body)
    (rounds : Nat) : Q (iterate condition body rounds) := by
  induction rounds with
  | zero => exact hq.exhausted
  | succ rounds ih =>
    refine hq.bind hc fun v => ?_
    split
    · refine hq.bind hb fun c => ?_
      cases c with
      | normal => exact ih
      | broke => exact hq.pure _
      | returned value => exact hq.pure _
    · exact hq.pure _

theorem leave (f : Function) (c : Completion) : Q (leave f c) := by
  cases c with
  | normal => exact hq.pure _
  | returned value => exact hq.pure _
  | broke => exact hq.fault _

end EvalLaw

namespace Law

variable {Q : {α : Type} → Eval α → Prop} (hq : Law Q)
include hq

mutual

theorem execWith {invoke : Function → List Value → Eval Value}
    (hi : ∀ f arguments, Q (invoke f arguments)) (rounds : Nat) (s : Stmt) :
    Q (execWith invoke rounds s) := by
  cases s with
  | block body => exact hq.enclosed (execAllWith hi rounds body)
  | breakLoop keyword => exact hq.checkLoop keyword (hq.pure _)
  | expression value => exact hq.bind (hq.evalWith hi value) fun _ => hq.pure _
  | function name parameters body =>
    exact hq.bind (hq.newFunction name parameters body) fun f =>
      hq.bind (hq.define name.lexeme _) fun _ => hq.pure _
  | branch condition yes no =>
    cases no with
    | none =>
      refine hq.bind (hq.evalWith hi condition) fun v => ?_
      split
      · exact execWith hi rounds yes
      · exact hq.pure _
    | some no =>
      refine hq.bind (hq.evalWith hi condition) fun v => ?_
      split
      · exact execWith hi rounds yes
      · exact execWith hi rounds no
  | print value =>
    refine hq.bind (hq.evalWith hi value) fun v => ?_
    cases v.display with
    | error u => exact hq.bind (hq.fault _) fun _ => hq.pure _
    | ok text => exact hq.bind (hq.print text) fun _ => hq.pure _
  | returnFrom keyword value =>
    refine hq.checkFunction keyword ?_
    cases value with
    | none => exact hq.pure _
    | some value => exact hq.bind (hq.evalWith hi value) fun v => hq.pure _
  | declare name initializer =>
    cases initializer with
    | none => exact hq.bind (hq.define _ _) fun _ => hq.pure _
    | some initializer =>
      exact hq.bind (hq.evalWith hi initializer) fun v => hq.bind (hq.define _ v) fun _ => hq.pure _
  | loop condition body =>
    exact hq.inLoop (hq.iterate (hq.evalWith hi condition) (execWith hi rounds body) rounds)
  | jump kind => cases kind <;> exact hq.pure _

theorem execAllWith {invoke : Function → List Value → Eval Value}
    (hi : ∀ f arguments, Q (invoke f arguments)) (rounds : Nat) (ss : List Stmt) :
    Q (execAllWith invoke rounds ss) := by
  cases ss with
  | nil => exact hq.pure _
  | cons s ss =>
    refine hq.bind (execWith hi rounds s) fun c => ?_
    cases c with
    | normal => exact execAllWith hi rounds ss
    | broke => exact hq.pure _
    | returned value => exact hq.pure _

end

-- One more level of calls keeps what holds of all calls below it.
theorem invoke (fuel : Nat) (f : Function) (arguments : List Value) :
    Q (invoke fuel f arguments) := by
  induction fuel generalizing f arguments with
  | zero => exact hq.exhausted
  | succ fuel ih =>
    rw [Run.invoke, callWith_eq]
    exact hq.bind (hq.enter f arguments (hq.execAllWith ih fuel f.body)) (hq.leave f)

theorem exec (fuel : Nat) (s : Stmt) : Q (exec fuel s) :=
  hq.execWith (hq.invoke fuel) fuel s

theorem execTop (fuel : Nat) (program : List Stmt) : Q (execTop fuel program) := by
  induction program with
  | nil => exact hq.pure ()
  | cons s ss ih =>
    refine hq.bind (hq.exec fuel s) fun c => ?_
    cases c with
    | normal => exact ih
    | broke => exact hq.fault _
    | returned value => exact hq.fault _

end Law

end Lox.Run
