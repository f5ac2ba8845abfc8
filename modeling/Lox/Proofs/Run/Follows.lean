import Lox.Proofs.Run.Running
import Lox.Proofs.Value.Relined

namespace Lox.Run

open Eval

def RuntimeError.relined (f : Token → Int) (e : RuntimeError) : RuntimeError :=
  ⟨e.token.relined f, e.fault⟩

def Halt.relined (f : Token → Int) : Halt → Halt
  | .error e => .error (e.relined f)
  | h => h

def Completion.relined (f : Token → Int) : Completion → Completion
  | .returned value => .returned (value.relined f)
  | c => c

-- The state with the tokens in its functions on other lines.
def State.relined (f : Token → Int) (s : State) : State :=
  { s with heap := s.heap.relined f }

-- The same with more printed before.
def State.moved (f : Token → Int) (before : String) (s : State) : State :=
  { s.relined f with printed := before ++ s.printed }

-- What code answers, with its tokens on other lines. A value is carried along by `g`.
def relinedAnswer {α : Type} (f : Token → Int) (g : α → α) : Except Halt α → Except Halt α
  | .ok a => .ok (g a)
  | .error h => .error (h.relined f)

-- Code that does in states with tokens on other lines what other code does in the states.
def Follows {α : Type} (f : Token → Int) (before : String) (g : α → α) (m m' : Eval α) : Prop :=
  ∀ s, m' (s.moved f before) = (relinedAnswer f g (m s).1, (m s).2.moved f before)

section

variable {α β : Type} {f : Token → Int} {before : String}

theorem follows_pure {g : α → α} (a : α) : Follows f before g (pure a) (pure (g a)) :=
  fun _ => rfl

theorem follows_bind {g : α → α} {g' : β → β} {m m' : Eval α} {k k' : α → Eval β}
    (hm : Follows f before g m m') (hk : ∀ a, Follows f before g' (k a) (k' (g a))) :
    Follows f before g' (m >>= k) (m' >>= k') := by
  intro s
  rw [run_bind, run_bind, hm s]
  rcases m s with ⟨h | a, t⟩
  · rfl
  · exact hk a t

theorem follows_ite {g : α → α} {m m' n n' : Eval α} (p : Prop) [Decidable p]
    (hm : Follows f before g m m') (hn : Follows f before g n n') :
    Follows f before g (if p then m else n) (if p then m' else n') := by
  split
  · exact hm
  · exact hn

theorem follows_throw {g : α → α} (h : Halt) :
    Follows f before g (throw h) (throw (h.relined f)) :=
  fun _ => rfl

theorem follows_fail {g : α → α} (token : Token) (fault : RuntimeFault) :
    Follows f before g (fail token fault) (fail (token.relined f) fault) :=
  fun _ => rfl

-- Code may look at the state if it does not look at lines or at what was printed.
theorem follows_get {g : β → β} {k k' : State → Eval β}
    (hk : ∀ s, Follows f before g (k s) (k' (s.moved f before))) :
    Follows f before g (get >>= k) (get >>= k') :=
  fun s => hk s s

theorem follows_lookup (name : Token) :
    Follows f before (Value.relined f) (lookup name) (lookup (name.relined f)) := by
  intro s
  rw [run_lookup, run_lookup]
  simp only [State.moved, State.relined, Heap.get?_relined, Token.lexeme_relined]
  cases s.heap.get? s.current name.lexeme <;> rfl

theorem follows_define (name : String) (value : Value) :
    Follows f before id (define name value) (define name (value.relined f)) := by
  intro s
  rw [run_define, run_define]
  simp [State.moved, State.relined, Heap.define_relined, relinedAnswer]

theorem follows_assign (name : Token) (value : Value) :
    Follows f before id (assign name value) (assign (name.relined f) (value.relined f)) := by
  intro s
  rw [run_assign, run_assign]
  simp only [State.moved, State.relined, Heap.owner?_relined, Token.lexeme_relined]
  cases s.heap.owner? name.lexeme s.current with
  | none => rfl
  | some owner => simp [Heap.define_relined, relinedAnswer]

theorem follows_newFunction (name : Token) (parameters : List Token) (body : List Stmt) :
    Follows f before (Function.relined f) (newFunction name parameters body)
      (newFunction (name.relined f) (parameters.map (·.relined f)) (Stmt.allRelined f body)) :=
  fun _ => rfl

theorem follows_print (text : String) : Follows f before id (print text) (print text) := by
  intro s
  rw [run_print, run_print]
  simp [State.moved, State.relined, relinedAnswer, String.append_assoc]

theorem follows_readClock : Follows f before (Value.relined f) readClock readClock :=
  fun _ => rfl

theorem follows_inLoop {g : α → α} {m m' : Eval α} (hm : Follows f before g m m') :
    Follows f before g (inLoop m) (inLoop m') := by
  intro s
  have hlooping : (s.moved f before).looping = s.looping.moved f before := rfl
  rw [run_inLoop, run_inLoop, hlooping, hm s.looping]
  rfl

theorem follows_enclosed {g : Completion → Completion} {m m' : Eval Completion}
    (hm : Follows f before g m m') : Follows f before g (enclosed m) (enclosed m') := by
  intro s
  have henclosed : (s.moved f before).enclosed = s.enclosed.moved f before := by
    simp [State.enclosed, State.moved, State.relined, Heap.create_relined]
  rw [run_enclosed, run_enclosed, henclosed, hm s.enclosed]
  rfl

theorem bindNames_relined (heap : Heap) (scope : ScopeId) (names : List Token)
    (values : List Value) :
    (bindNames heap scope names values).relined f =
      bindNames (heap.relined f) scope (names.map (·.relined f)) (values.map (·.relined f)) := by
  induction names generalizing heap values with
  | nil => rfl
  | cons name names ih =>
    cases values with
    | nil => rfl
    | cons value values =>
      simp only [List.map_cons, bindNames, ih, Heap.define_relined, Token.lexeme_relined]

theorem follows_enter {g : Completion → Completion} {run run' : List Stmt → Eval Completion}
    {fn : Function} (hm : Follows f before g (run fn.body) (run' (fn.relined f).body))
    (arguments : List Value) :
    Follows f before g (enter run fn arguments)
      (enter run' (fn.relined f) (arguments.map (·.relined f))) := by
  intro s
  have hentered : (s.moved f before).entered (fn.relined f) (arguments.map (·.relined f)) =
      (s.entered fn arguments).moved f before := by
    simp [State.entered, State.moved, State.relined, Function.relined, bindNames_relined,
        Heap.create_relined]
  rw [run_enter, run_enter, hentered, hm (s.entered fn arguments)]
  rfl

end

-- Calls of the same functions with their tokens on other lines.
def FollowingCalls (f : Token → Int) (before : String)
    (invoke : Function → List Value → Eval Value) : Prop :=
  ∀ fn arguments, Follows f before (Value.relined f) (invoke fn arguments)
    (invoke (fn.relined f) (arguments.map (·.relined f)))

section

variable {f : Token → Int} {before : String} {invoke : Function → List Value → Eval Value}

theorem follows_applyBinary (left : Value) (operator : Token) (right : Value) :
    Follows f before (Value.relined f) (applyBinary left operator right)
      (applyBinary (left.relined f) (operator.relined f) (right.relined f)) := by
  unfold applyBinary
  rw [Token.kind_relined, Token.lexeme_relined]
  cases hop : Value.binary? operator.kind with
  | none => exact follows_throw (.fault _)
  | some operation =>
    have hresult := (Value.isResult_binary hop left right).relined f
    simp only [Value.binary_relined f hop]
    cases hv : operation left right with
    | undefined u =>
      have hfault : operandFault operator.kind (left.relined f) (right.relined f) u =
          operandFault operator.kind left right u := by
        cases u <;> simp [operandFault]
      dsimp only
      rw [hfault]
      exact follows_fail operator _
    | _ =>
      rw [hv] at hresult
      intro s
      simp [relinedAnswer, hresult]

theorem follows_applyUnary (operator : Token) (operand : Value) :
    Follows f before (Value.relined f) (applyUnary operator operand)
      (applyUnary (operator.relined f) (operand.relined f)) := by
  unfold applyUnary
  rw [Token.kind_relined, Token.lexeme_relined]
  cases hop : Value.unary? operator.kind with
  | none => exact follows_throw (.fault _)
  | some operation =>
    simp only [Value.unary_relined f hop]
    exact follows_pure _

theorem follows_applyCall (hi : FollowingCalls f before invoke) (callee : Value) (paren : Token)
    (arguments : List Value) :
    Follows f before (Value.relined f) (applyCall invoke callee paren arguments)
      (applyCall invoke (callee.relined f) (paren.relined f) (arguments.map (·.relined f))) := by
  unfold applyCall
  cases callee with
  | function fn =>
    simp only [Value.relined, Function.relined, List.length_map]
    exact follows_ite _ (hi fn arguments) (follows_fail paren _)
  | primitive p =>
    simp only [Value.relined, List.length_map]
    refine follows_ite _ ?_ (follows_fail paren _)
    cases p with
    | clock => exact follows_readClock
    | inert name identity native => exact follows_pure Value.nil
  | _ => exact follows_fail paren _

mutual

theorem follows_evalWith (hi : FollowingCalls f before invoke) (e : Expr) :
    Follows f before (Value.relined f) (evalWith invoke e) (evalWith invoke (e.relined f)) := by
  cases e with
  | assign name value =>
    exact follows_bind (follows_evalWith hi value) fun v =>
      follows_bind (follows_assign name v) fun _ => follows_pure v
  | binary left operator right =>
    exact follows_bind (follows_evalWith hi left) fun l =>
      follows_bind (follows_evalWith hi right) fun r => follows_applyBinary l operator r
  | call callee paren arguments =>
    exact follows_bind (follows_evalWith hi callee) fun c =>
      follows_bind (follows_evalAllWith hi arguments) fun args => follows_applyCall hi c paren args
  | grouping inner => exact follows_evalWith hi inner
  | literal value =>
    intro s
    simp [evalWith, Expr.relined, relinedAnswer, Literal.relined_value]
  | logical left operator right =>
    refine follows_bind (follows_evalWith hi left) fun l => ?_
    rw [Value.isTruthy_relined]
    exact follows_ite _ (follows_pure l) (follows_evalWith hi right)
  | unary operator operand =>
    exact follows_bind (follows_evalWith hi operand) fun v => follows_applyUnary operator v
  | «variable» name => exact follows_lookup name

theorem follows_evalAllWith (hi : FollowingCalls f before invoke) (es : List Expr) :
    Follows f before (List.map (·.relined f)) (evalAllWith invoke es)
      (evalAllWith invoke (Expr.allRelined f es)) := by
  cases es with
  | nil => exact follows_pure []
  | cons e es =>
    exact follows_bind (follows_evalWith hi e) fun v =>
      follows_bind (follows_evalAllWith hi es) fun vs => follows_pure (v :: vs)

end

theorem follows_iterate {condition condition' : Eval Value} {body body' : Eval Completion}
    (hc : Follows f before (Value.relined f) condition condition')
    (hb : Follows f before (Completion.relined f) body body') (rounds : Nat) :
    Follows f before (Completion.relined f) (iterate condition body rounds)
      (iterate condition' body' rounds) := by
  induction rounds with
  | zero => exact follows_throw .exhausted
  | succ rounds ih =>
    refine follows_bind hc fun v => ?_
    rw [Value.isTruthy_relined]
    refine follows_ite _ (follows_bind hb fun c => ?_) (follows_pure Completion.normal)
    cases c with
    | normal => exact ih
    | broke => exact follows_pure Completion.normal
    | returned value => exact follows_pure (Completion.returned value)

mutual

theorem follows_execWith (hi : FollowingCalls f before invoke) (rounds : Nat) (s : Stmt) :
    Follows f before (Completion.relined f) (execWith invoke rounds s)
      (execWith invoke rounds (s.relined f)) := by
  cases s with
  | block body => exact follows_enclosed (follows_execAllWith hi rounds body)
  | breakLoop keyword =>
    exact follows_get fun s =>
      follows_ite (s.loopDepth = 0) (follows_fail keyword _) (follows_pure Completion.broke)
  | expression value =>
    exact follows_bind (follows_evalWith hi value) fun _ => follows_pure Completion.normal
  | function name parameters body =>
    exact follows_bind (follows_newFunction name parameters body) fun fn =>
      follows_bind (follows_define name.lexeme (.function fn)) fun _ =>
        follows_pure Completion.normal
  | branch condition yes no =>
    cases no with
    | none =>
      refine follows_bind (follows_evalWith hi condition) fun v => ?_
      rw [Value.isTruthy_relined]
      exact follows_ite _ (follows_execWith hi rounds yes) (follows_pure Completion.normal)
    | some no =>
      refine follows_bind (follows_evalWith hi condition) fun v => ?_
      rw [Value.isTruthy_relined]
      exact follows_ite _ (follows_execWith hi rounds yes) (follows_execWith hi rounds no)
  | print value =>
    refine follows_bind (follows_evalWith hi value) fun v => ?_
    rw [Value.display_relined]
    cases v.display with
    | error u =>
      exact follows_bind (g := id) (follows_throw (.fault _)) fun _ =>
        follows_pure Completion.normal
    | ok text => exact follows_bind (follows_print text) fun _ => follows_pure Completion.normal
  | returnFrom keyword value =>
    cases value with
    | none =>
      exact follows_get fun s => follows_ite (s.functionDepth = 0) (follows_fail keyword _)
        (follows_pure (Completion.returned .nil))
    | some value =>
      exact follows_get fun s => follows_ite (s.functionDepth = 0) (follows_fail keyword _)
        (follows_bind (follows_evalWith hi value) fun v => follows_pure (Completion.returned v))
  | declare name initializer =>
    cases initializer with
    | none =>
      exact follows_bind (follows_define name.lexeme .nil) fun _ => follows_pure Completion.normal
    | some initializer =>
      exact follows_bind (follows_evalWith hi initializer) fun v =>
        follows_bind (follows_define name.lexeme v) fun _ => follows_pure Completion.normal
  | loop condition body =>
    exact follows_inLoop
      (follows_iterate (follows_evalWith hi condition) (follows_execWith hi rounds body) rounds)
  | jump kind =>
    cases kind with
    | breakLoop => exact follows_pure Completion.broke
    | returnNil => exact follows_pure (Completion.returned .nil)

theorem follows_execAllWith (hi : FollowingCalls f before invoke) (rounds : Nat)
    (ss : List Stmt) :
    Follows f before (Completion.relined f) (execAllWith invoke rounds ss)
      (execAllWith invoke rounds (Stmt.allRelined f ss)) := by
  cases ss with
  | nil => exact follows_pure Completion.normal
  | cons s ss =>
    refine follows_bind (follows_execWith hi rounds s) fun c => ?_
    cases c with
    | normal => exact follows_execAllWith hi rounds ss
    | broke => exact follows_pure Completion.broke
    | returned value => exact follows_pure (Completion.returned value)

end

theorem follows_leave (fn : Function) (c : Completion) :
    Follows f before (Value.relined f) (leave fn c) (leave (fn.relined f) (c.relined f)) := by
  cases c with
  | normal => exact follows_pure Value.nil
  | returned value => exact follows_pure value
  | broke => exact follows_throw (.fault _)

theorem following_invoke (fuel : Nat) : FollowingCalls f before (Run.invoke fuel) := by
  induction fuel with
  | zero => exact fun _ _ => follows_throw .exhausted
  | succ fuel ih =>
    intro fn arguments
    rw [Run.invoke, Run.invoke, callWith_eq, callWith_eq]
    exact follows_bind (follows_enter (follows_execAllWith ih fuel fn.body) arguments)
      fun c => follows_leave fn c

-- A program on other lines does the same, whatever was printed before: only the tokens in errors
-- and functions are on the other lines.
theorem follows_execTop (fuel : Nat) (program : List Stmt) :
    Follows f before id (execTop fuel program) (execTop fuel (Stmt.allRelined f program)) := by
  induction program with
  | nil => exact follows_pure ()
  | cons s ss ih =>
    refine follows_bind (follows_execWith (following_invoke fuel) fuel s) fun c => ?_
    cases c with
    | normal => exact ih
    | broke => exact follows_throw (.fault _)
    | returned value => exact follows_throw (.fault _)

end

def Ending.relined (f : Token → Int) : Ending → Ending
  | .failed e => .failed (e.relined f)
  | ending => ending

theorem run_relined (f : Token → Int) (fuel : Nat) (program : List Stmt) (s : State) :
    run fuel (Stmt.allRelined f program) (s.relined f) =
      ((run fuel program s).1.relined f, (run fuel program s).2.relined f) := by
  have hstarted : (s.relined f).started = s.started.moved f "" := rfl
  rw [run_eq, run_eq, hstarted, follows_execTop fuel program s.started]
  rcases execTop fuel program s.started with ⟨(e | fault | _) | _, t⟩ <;>
    simp [relinedAnswer, Halt.relined, Ending.of, Ending.relined, State.moved, State.relined]

end Lox.Run
