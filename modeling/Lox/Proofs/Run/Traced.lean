import Lox.Proofs.Run.Moment

namespace Lox.Run

open Eval

-- The state in which a task ends, in whatever way.
def Moment.ended : Moment → State
  | ⟨n, .expression e, s⟩ => (eval n e s).2
  | ⟨n, .arguments es, s⟩ => (evalAllWith (invoke n) es s).2
  | ⟨n, .statement st, s⟩ => (exec n st s).2
  | ⟨n, .sequence ss, s⟩ => (execAllWith (invoke n) n ss s).2
  | ⟨n, .rounds condition body k, s⟩ => (iterate (eval n condition) (exec n body) k s).2
  | ⟨n, .call f vs, s⟩ => (invoke n f vs s).2

-- A relation between the heaps before and after a part of what a task does. It can be told from what
-- the task binds by itself, from the scopes that blocks and calls create, and from the tasks that
-- this one comes to.
structure Traced (R : Moment → Heap → Heap → Prop) : Prop where
  refl : ∀ (m : Moment) (heap : Heap), R m heap heap
  trans : ∀ {m : Moment} {g h k : Heap}, R m g h → R m h k → R m g k
  enters : ∀ {m m' : Moment} {heap : Heap}, m.Enters m' → R m' m'.state.heap heap →
    R m m'.state.heap heap
  binds : ∀ {m : Moment} {t : State} {id : ScopeId} {name : String} {value : Value} (heap : Heap),
    m.Binds t id name value → R m heap (heap.define id name value)
  block : ∀ (n : Nat) (ss : List Stmt) (s : State),
    R ⟨n, .statement (.block ss), s⟩ s.heap (s.heap.create (some s.current))
  call : ∀ (n : Nat) (f : Function) (vs : List Value) (s : State),
    R ⟨n + 1, .call f vs, s⟩ s.heap (s.heap.create (some f.scope))

-- Code that is a part of what a task does, from some state on.
def Tracing {α : Type} (R : Moment → Heap → Heap → Prop) (m : Moment) (run : Eval α) (s : State) :
    Prop :=
  R m s.heap (run s).2.heap

namespace Traced

variable {R : Moment → Heap → Heap → Prop} (hr : Traced R)
include hr

section

variable {α β : Type} {m m' : Moment} {s : State}

theorem bind {run : Eval α} {f : α → Eval β} (hm : Tracing R m run s)
    (hf : ∀ a t, run s = (.ok a, t) → Tracing R m (f a) t) : Tracing R m (run >>= f) s := by
  rcases hrun : run s with ⟨h | a, t⟩
  · rw [Tracing, run_bind, hrun]
    rw [Tracing, hrun] at hm
    exact hm
  · rw [Tracing, run_bind_ok hrun]
    rw [Tracing, hrun] at hm
    exact hr.trans hm (hf a t hrun)

theorem of_heap {run : Eval α} (h : (run s).2.heap = s.heap) : Tracing R m run s := by
  rw [Tracing, h]
  exact hr.refl m s.heap

theorem applyBinary (left : Value) (operator : Token) (right : Value) :
    Tracing R m (applyBinary left operator right) s := by
  unfold Run.applyBinary
  cases Value.binary? operator.kind with
  | none => exact hr.of_heap rfl
  | some operation =>
    dsimp only
    split <;> exact hr.of_heap rfl

theorem applyCall {invoke : Function → List Value → Eval Value} {callee : Value}
    (paren : Token) {arguments : List Value}
    (hi : ∀ f, callee = .function f → arguments.length = f.parameters.length →
      Tracing R m (invoke f arguments) s) :
    Tracing R m (applyCall invoke callee paren arguments) s := by
  unfold Run.applyCall
  cases callee with
  | function f =>
    dsimp only
    split
    · next hn => exact hi f rfl hn
    · exact hr.of_heap rfl
  | primitive p =>
    dsimp only
    split
    · cases p <;> exact hr.of_heap rfl
    · exact hr.of_heap rfl
  | _ => exact hr.of_heap rfl

theorem bindNames (heap : Heap) (scope : ScopeId) (names : List Token) (values : List Value)
    (hb : ∀ name v, (name, v) ∈ names.zip values → ∀ heap : Heap,
      R m heap (heap.define scope name.lexeme v)) :
    R m heap (bindNames heap scope names values) := by
  induction names generalizing heap values with
  | nil => exact hr.refl m heap
  | cons name names ih =>
    cases values with
    | nil => exact hr.refl m heap
    | cons value values =>
      have hfirst := hb name value (by simp) heap
      exact hr.trans hfirst (ih _ values fun name v h => hb name v (by simp [h]))

-- What a call does before its body starts.
theorem opened (fuel : Nat) (f : Function) (vs : List Value) (s : State) :
    R ⟨fuel + 1, .call f vs, s⟩ s.heap (s.entered f vs).heap := by
  have hbound := hr.bindNames (s.heap.create (some f.scope)) s.heap.size f.parameters vs
    fun name v h heap => hr.binds heap (Moment.Binds.parameter (n := fuel) (s := s) h)
  exact hr.trans (hr.call fuel f vs s) hbound

end

variable {fuel : Nat}

mutual

theorem evalWith (hi : ∀ f vs s, Tracing R ⟨fuel, .call f vs, s⟩ (invoke fuel f vs) s) (e : Expr)
    (s : State) : Tracing R ⟨fuel, .expression e, s⟩ (evalWith (invoke fuel) e) s := by
  cases e with
  | assign name value =>
    refine hr.bind (hr.enters .assigned (evalWith hi value s)) fun v t hv => ?_
    refine hr.bind ?_ fun _ _ _ => hr.of_heap rfl
    rw [Tracing, run_assign]
    cases ho : t.heap.owner? name.lexeme t.current with
    | none => exact hr.refl _ _
    | some owner => exact hr.binds t.heap (.assigned hv ho)
  | binary left operator right =>
    refine hr.bind (hr.enters .left (evalWith hi left s)) fun l t hl => ?_
    exact hr.bind (hr.enters (.right hl) (evalWith hi right t)) fun r u _ =>
      hr.applyBinary l operator r
  | call callee paren arguments =>
    refine hr.bind (hr.enters .callee (evalWith hi callee s)) fun c t hc => ?_
    refine hr.bind (hr.enters (.arguments hc) (evalAllWith hi arguments t)) fun vs u ha => ?_
    refine hr.applyCall paren fun f hf hn => ?_
    exact hr.enters (.call (hf ▸ hc) ha hn) (hi f vs u)
  | grouping inner => exact hr.enters .grouping (evalWith hi inner s)
  | literal value => exact hr.of_heap rfl
  | logical left operator right =>
    refine hr.bind (hr.enters .first (evalWith hi left s)) fun l t hl => ?_
    split
    · exact hr.of_heap rfl
    · next hv => exact hr.enters (.second hl hv) (evalWith hi right t)
  | unary operator operand =>
    refine hr.bind (hr.enters .operand (evalWith hi operand s)) fun v t _ => hr.of_heap ?_
    unfold applyUnary
    cases Value.unary? operator.kind <;> rfl
  | «variable» name =>
    refine hr.of_heap ?_
    rw [Run.evalWith, run_lookup]
    split <;> rfl

theorem evalAllWith (hi : ∀ f vs s, Tracing R ⟨fuel, .call f vs, s⟩ (invoke fuel f vs) s)
    (es : List Expr) (s : State) :
    Tracing R ⟨fuel, .arguments es, s⟩ (evalAllWith (invoke fuel) es) s := by
  cases es with
  | nil => exact hr.of_heap rfl
  | cons e es =>
    refine hr.bind (hr.enters .argument (evalWith hi e s)) fun v t hv => ?_
    exact hr.bind (hr.enters (.nextArguments hv) (evalAllWith hi es t)) fun _ _ _ =>
      hr.of_heap rfl

end

theorem iterate {condition : Expr} {body : Stmt}
    (hc : ∀ s, Tracing R ⟨fuel, .expression condition, s⟩ (eval fuel condition) s)
    (hb : ∀ s, Tracing R ⟨fuel, .statement body, s⟩ (exec fuel body) s) (rounds : Nat) (s : State) :
    Tracing R ⟨fuel, .rounds condition body rounds, s⟩
      (iterate (eval fuel condition) (exec fuel body) rounds) s := by
  induction rounds generalizing s with
  | zero => exact hr.of_heap rfl
  | succ rounds ih =>
    refine hr.bind (hr.enters .test (hc s)) fun v t hv => ?_
    split
    · next htruthy =>
      refine hr.bind (hr.enters (.round hv htruthy) (hb t)) fun c u hrun => ?_
      cases c with
      | normal => exact hr.enters (.nextRounds hv htruthy hrun) (ih u)
      | broke | returned value => exact hr.of_heap rfl
    · exact hr.of_heap rfl

mutual

theorem execWith (hi : ∀ f vs s, Tracing R ⟨fuel, .call f vs, s⟩ (invoke fuel f vs) s) (st : Stmt)
    (s : State) : Tracing R ⟨fuel, .statement st, s⟩ (execWith (invoke fuel) fuel st) s := by
  cases st with
  | block body =>
    exact hr.trans (hr.block fuel body s) (hr.enters .block (execAllWith hi body s.enclosed))
  | breakLoop keyword =>
    refine hr.of_heap ?_
    rw [Run.execWith, run_get_bind]
    split <;> rfl
  | expression value =>
    exact hr.bind (hr.enters .expression (hr.evalWith hi value s)) fun _ _ _ => hr.of_heap rfl
  | function name parameters body => exact hr.binds s.heap .function
  | branch condition yes no =>
    cases no with
    | none =>
      refine hr.bind (hr.enters .condition (hr.evalWith hi condition s)) fun v t hv => ?_
      split
      · next htruthy => exact hr.enters (.yes hv htruthy) (execWith hi yes t)
      · exact hr.of_heap rfl
    | some no =>
      refine hr.bind (hr.enters .condition (hr.evalWith hi condition s)) fun v t hv => ?_
      split
      · next htruthy => exact hr.enters (.yes hv htruthy) (execWith hi yes t)
      · next hfalsey => exact hr.enters (.no hv (Bool.eq_false_iff.2 hfalsey)) (execWith hi no t)
  | print value =>
    refine hr.bind (hr.enters .printed (hr.evalWith hi value s)) fun v t _ => hr.of_heap ?_
    cases v.display <;> rfl
  | returnFrom keyword value =>
    cases value with
    | none =>
      refine hr.of_heap ?_
      rw [Run.execWith, run_get_bind]
      split <;> rfl
    | some value =>
      rw [Tracing, Run.execWith, run_get_bind]
      split
      · exact hr.refl _ _
      · next hdepth =>
        exact hr.bind (hr.enters (.returned hdepth) (hr.evalWith hi value s)) fun _ _ _ =>
          hr.of_heap rfl
  | declare name initializer =>
    cases initializer with
    | none => exact hr.binds s.heap .declared
    | some initializer =>
      refine hr.bind (hr.enters .initializer (hr.evalWith hi initializer s)) fun v t hv => ?_
      exact hr.binds t.heap (.initialized hv)
  | loop condition body =>
    exact hr.enters .loop (hr.iterate (hr.evalWith hi condition) (execWith hi body) fuel s.looping)
  | jump kind => cases kind <;> exact hr.of_heap rfl

theorem execAllWith (hi : ∀ f vs s, Tracing R ⟨fuel, .call f vs, s⟩ (invoke fuel f vs) s)
    (ss : List Stmt) (s : State) :
    Tracing R ⟨fuel, .sequence ss, s⟩ (execAllWith (invoke fuel) fuel ss) s := by
  cases ss with
  | nil => exact hr.of_heap rfl
  | cons st ss =>
    refine hr.bind (hr.enters .statement (execWith hi st s)) fun c t hrun => ?_
    cases c with
    | normal => exact hr.enters (.nextStatements hrun) (execAllWith hi ss t)
    | broke | returned value => exact hr.of_heap rfl

end

theorem invoke (fuel : Nat) (f : Function) (vs : List Value) (s : State) :
    Tracing R ⟨fuel, .call f vs, s⟩ (invoke fuel f vs) s := by
  induction fuel generalizing f vs s with
  | zero => exact hr.of_heap rfl
  | succ fuel ih =>
    rw [Run.invoke, callWith_eq]
    refine hr.bind ?_ fun c t _ => hr.of_heap (by cases c <;> rfl)
    have hbody := hr.enters .body (hr.execAllWith ih f.body (s.entered f vs))
    rw [Tracing, run_enter]
    exact hr.trans (hr.opened fuel f vs s) hbody

theorem eval (fuel : Nat) (e : Expr) (s : State) :
    Tracing R ⟨fuel, .expression e, s⟩ (eval fuel e) s :=
  hr.evalWith (hr.invoke fuel) e s

theorem exec (fuel : Nat) (st : Stmt) (s : State) :
    Tracing R ⟨fuel, .statement st, s⟩ (exec fuel st) s :=
  hr.execWith (hr.invoke fuel) st s

section

variable {m : Moment} {s t : State}

theorem evaluated {e : Expr} {a : Except Halt Value} (hm : m.Enters ⟨fuel, .expression e, s⟩)
    (h : Run.eval fuel e s = (a, t)) : R m s.heap t.heap := by
  have hrun := hr.eval fuel e s
  rw [Tracing, h] at hrun
  exact hr.enters hm hrun

theorem evaluatedAll {es : List Expr} {a : Except Halt (List Value)}
    (hm : m.Enters ⟨fuel, .arguments es, s⟩) (h : Run.evalAllWith (Run.invoke fuel) es s = (a, t)) :
    R m s.heap t.heap := by
  have hrun := hr.evalAllWith (hr.invoke fuel) es s
  rw [Tracing, h] at hrun
  exact hr.enters hm hrun

theorem executed {st : Stmt} {a : Except Halt Completion} (hm : m.Enters ⟨fuel, .statement st, s⟩)
    (h : Run.exec fuel st s = (a, t)) : R m s.heap t.heap := by
  have hrun := hr.exec fuel st s
  rw [Tracing, h] at hrun
  exact hr.enters hm hrun

end

-- It holds between the start of a task and that of each that it comes to.
theorem entered {m m' : Moment} (h : m.Enters m') : R m m.state.heap m'.state.heap := by
  cases h with
  | assigned | left | callee | grouping | first | operand | argument | expression | condition
  | printed | returned _ | initializer | test | statement | loop => exact hr.refl _ _
  | right h => exact hr.evaluated .left h
  | arguments h => exact hr.evaluated .callee h
  | second h _ => exact hr.evaluated .first h
  | nextArguments h => exact hr.evaluated .argument h
  | yes h _ | no h _ => exact hr.evaluated .condition h
  | round h _ => exact hr.evaluated .test h
  | nextStatements h => exact hr.executed .statement h
  | call hc ha _ => exact hr.trans (hr.evaluated .callee hc) (hr.evaluatedAll (.arguments hc) ha)
  | nextRounds hc hv hb => exact hr.trans (hr.evaluated .test hc) (hr.executed (.round hc hv) hb)
  | block => exact hr.block _ _ _
  | body => exact hr.opened _ _ _ _

-- It holds between the start and the end of every task.
theorem ended (m : Moment) : R m m.state.heap m.ended.heap := by
  obtain ⟨n, task, s⟩ := m
  cases task with
  | expression e => exact hr.eval n e s
  | arguments es => exact hr.evalAllWith (hr.invoke n) es s
  | statement st => exact hr.exec n st s
  | sequence ss => exact hr.execAllWith (hr.invoke n) ss s
  | rounds condition body k => exact hr.iterate (hr.eval n condition) (hr.exec n body) k s
  | call f vs => exact hr.invoke n f vs s

end Traced

end Lox.Run
