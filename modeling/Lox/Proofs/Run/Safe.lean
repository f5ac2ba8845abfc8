import Lox.Proofs.Run.Discipline

namespace Lox.Run

open Eval

variable {α β : Type} {d : Discipline}

-- The faults that trees can still bring about: those of operators and jumps that are allowed but
-- that no program text gives.
def Permits (d : Discipline) : InternalFault → Prop
  | .displayed _ => False
  | .unknownBinary name =>
    ∃ t : Token, d.binary t.kind ∧ Value.binary? t.kind = none ∧ t.lexeme = name
  | .unknownUnary name =>
    ∃ t : Token, d.unary t.kind ∧ Value.unary? t.kind = none ∧ t.lexeme = name
  | .reachedTop _ | .escapedBody _ _ => d.jump

-- What a run may answer, given which values are good.
def Accepts (d : Discipline) (good : α → Prop) : Except Halt α → Prop
  | .ok a => good a
  | .error (.error e) => d.token e.token
  | .error (.fault f) => Permits d f
  | .error .exhausted => True

-- A state inside a number of loops and calls in which all values obey.
structure State.Lawful (d : Discipline) (loops calls : Nat) (s : State) : Prop where
  loops : s.loopDepth = loops
  calls : s.functionDepth = calls
  heap : s.heap.All (Value.Obeys d)

-- How a statement may end inside a number of loops and calls. Only an unchecked jump can break
-- outside of all loops or return outside of all functions.
def Completion.Fits (d : Discipline) (loops calls : Nat) : Completion → Prop
  | .normal => True
  | .broke => loops ≠ 0 ∨ d.jump
  | .returned value => value.Obeys d ∧ (calls ≠ 0 ∨ d.jump)

-- Code that keeps states lawful, ends where it started and answers what it may.
def Safe (d : Discipline) (loops calls : Nat) (good : α → Prop) (m : Eval α) : Prop :=
  ∀ s : State, s.Lawful d loops calls →
    (m s).2.Lawful d loops calls ∧ Accepts d good (m s).1

section

variable {loops calls : Nat}

theorem safe_pure {good : α → Prop} {a : α} (h : good a) : Safe d loops calls good (pure a) :=
  fun _ hs => ⟨hs, h⟩

theorem safe_bind {good : α → Prop} {good' : β → Prop} {m : Eval α} {f : α → Eval β}
    (hm : Safe d loops calls good m) (hf : ∀ a, good a → Safe d loops calls good' (f a)) :
    Safe d loops calls good' (m >>= f) := by
  intro s hs
  obtain ⟨ht, hr⟩ := hm s hs
  rw [run_bind]
  rcases hrun : m s with ⟨h | a, t⟩ <;> rw [hrun] at ht hr
  · cases h <;> exact ⟨ht, hr⟩
  · exact hf a hr t ht

theorem safe_throw {good : α → Prop} {h : Halt} (hh : Accepts d good (.error h)) :
    Safe d loops calls good (throw h : Eval α) :=
  fun _ hs => ⟨hs, hh⟩

theorem safe_fail {good : α → Prop} {token : Token} (ht : d.token token) (fault : RuntimeFault) :
    Safe d loops calls good (fail token fault : Eval α) :=
  fun _ hs => ⟨hs, ht⟩

-- What the code does may depend on what it finds in the state.
theorem safe_get {good : β → Prop} {f : State → Eval β}
    (hf : ∀ s : State, s.Lawful d loops calls → Safe d loops calls good (f s)) :
    Safe d loops calls good (get >>= f) :=
  fun s hs => hf s hs s hs

theorem safe_lookup {name : Token} (hname : d.token name) :
    Safe d loops calls (Value.Obeys d) (lookup name) := by
  intro s hs
  rw [run_lookup]
  cases hv : s.heap.get? s.current name.lexeme with
  | none => exact ⟨hs, hname⟩
  | some value => exact ⟨hs, hs.heap.get? hv⟩

theorem safe_assign {name : Token} {value : Value} (hname : d.token name) (hv : value.Obeys d) :
    Safe d loops calls (fun _ => True) (assign name value) := by
  intro s hs
  rw [run_assign]
  cases s.heap.owner? name.lexeme s.current with
  | none => exact ⟨hs, hname⟩
  | some owner => exact ⟨⟨hs.loops, hs.calls, hs.heap.define owner _ hv⟩, trivial⟩

theorem safe_define (name : String) {value : Value} (hv : value.Obeys d) :
    Safe d loops calls (fun _ => True) (define name value) :=
  fun s hs => ⟨⟨hs.loops, hs.calls, hs.heap.define s.current name hv⟩, trivial⟩

theorem safe_newFunction (name : Token) (parameters : List Token) {body : List Stmt}
    (hb : Stmt.AllObey d body) :
    Safe d loops calls (fun f => (Value.function f).Obeys d) (newFunction name parameters body) :=
  fun _ hs => ⟨⟨hs.loops, hs.calls, hs.heap⟩, hb⟩

theorem safe_print (text : String) : Safe d loops calls (fun _ => True) (print text) :=
  fun _ hs => ⟨⟨hs.loops, hs.calls, hs.heap⟩, trivial⟩

theorem safe_readClock : Safe d loops calls (Value.Obeys d) readClock :=
  fun _ hs => ⟨⟨hs.loops, hs.calls, hs.heap⟩, trivial⟩

theorem safe_inLoop {good : α → Prop} {m : Eval α} (hm : Safe d (loops + 1) calls good m) :
    Safe d loops calls good (inLoop m) := by
  intro s hs
  obtain ⟨ht, hr⟩ := hm s.looping ⟨congrArg (· + 1) hs.loops, hs.calls, hs.heap⟩
  exact ⟨⟨congrArg (· - 1) ht.loops, ht.calls, ht.heap⟩, hr⟩

theorem safe_enclosed {good : Completion → Prop} {m : Eval Completion}
    (hm : Safe d loops calls good m) : Safe d loops calls good (enclosed m) := by
  intro s hs
  obtain ⟨ht, hr⟩ := hm s.enclosed ⟨hs.loops, hs.calls, hs.heap.create _⟩
  exact ⟨⟨ht.loops, ht.calls, ht.heap⟩, hr⟩

theorem all_bindNames {heap : Heap} (h : heap.All (Value.Obeys d)) (scope : ScopeId)
    (names : List Token) {values : List Value} (hv : ∀ v ∈ values, v.Obeys d) :
    (bindNames heap scope names values).All (Value.Obeys d) := by
  induction names generalizing heap values with
  | nil => exact h
  | cons name names ih =>
    cases values with
    | nil => exact h
    | cons value values =>
      obtain ⟨hvalue, hvalues⟩ := List.forall_mem_cons.1 hv
      exact ih (h.define scope _ hvalue) hvalues

theorem safe_enter {good : Completion → Prop} {run : List Stmt → Eval Completion} {f : Function}
    {arguments : List Value} (ha : ∀ v ∈ arguments, v.Obeys d)
    (hm : Safe d 0 (calls + 1) good (run f.body)) :
    Safe d loops calls good (enter run f arguments) := by
  intro s hs
  obtain ⟨ht, hr⟩ := hm (s.entered f arguments)
    ⟨rfl, congrArg (· + 1) hs.calls, all_bindNames (hs.heap.create _) _ _ ha⟩
  rw [run_enter]
  exact ⟨⟨hs.loops, congrArg (· - 1) ht.calls, ht.heap⟩, hr⟩

end

-- Calls of functions whose bodies obey, with arguments that obey, wherever they stand.
def SafeCalls (d : Discipline) (invoke : Function → List Value → Eval Value) : Prop :=
  ∀ loops calls f arguments, (Value.function f).Obeys d → (∀ v ∈ arguments, v.Obeys d) →
    Safe d loops calls (Value.Obeys d) (invoke f arguments)

section

variable {loops calls : Nat} {invoke : Function → List Value → Eval Value}

theorem safe_applyBinary {left right : Value} {operator : Token} (ht : d.token operator)
    (hb : d.binary operator.kind) :
    Safe d loops calls (Value.Obeys d) (applyBinary left operator right) := by
  unfold applyBinary
  cases hop : Value.binary? operator.kind with
  | none => exact safe_throw ⟨operator, hb, hop, rfl⟩
  | some operation =>
    have hresult := Value.isResult_binary hop left right
    dsimp only
    split
    · exact safe_fail ht _
    · next result hdefined =>
      refine safe_pure ?_
      cases hv : operation left right with
      | undefined u => exact absurd hv (hdefined u)
      | primitive p => exact trivial
      | function f =>
        rw [hv] at hresult
        exact absurd hresult not_false
      | _ => exact trivial

theorem safe_applyUnary {operand : Value} {operator : Token} (hu : d.unary operator.kind) :
    Safe d loops calls (Value.Obeys d) (applyUnary operator operand) := by
  unfold applyUnary
  cases hop : Value.unary? operator.kind with
  | none => exact safe_throw ⟨operator, hu, hop, rfl⟩
  | some operation => exact safe_pure (Value.obeys_unary hop operand)

theorem safe_applyCall (hi : SafeCalls d invoke) {callee : Value} {paren : Token}
    {arguments : List Value} (hp : d.token paren) (hf : callee.Obeys d)
    (ha : ∀ v ∈ arguments, v.Obeys d) :
    Safe d loops calls (Value.Obeys d) (applyCall invoke callee paren arguments) := by
  unfold applyCall
  cases callee with
  | function f =>
    dsimp only
    split
    · exact hi loops calls f arguments hf ha
    · exact safe_fail hp _
  | primitive p =>
    dsimp only
    split
    · cases p with
      | clock => exact safe_readClock
      | inert name identity native => exact safe_pure trivial
    · exact safe_fail hp _
  | _ => exact safe_fail hp _

mutual

theorem safe_evalWith (hi : SafeCalls d invoke) {e : Expr} (he : e.Obeys d) :
    Safe d loops calls (Value.Obeys d) (evalWith invoke e) := by
  cases e with
  | assign name value =>
    obtain ⟨hname, hvalue⟩ := he
    exact safe_bind (safe_evalWith hi hvalue) fun v hv =>
      safe_bind (safe_assign hname hv) fun _ _ => safe_pure hv
  | binary left operator right =>
    obtain ⟨ht, hb, hleft, hright⟩ := he
    exact safe_bind (safe_evalWith hi hleft) fun l _ =>
      safe_bind (safe_evalWith hi hright) fun r _ => safe_applyBinary ht hb
  | call callee paren arguments =>
    obtain ⟨hp, hcallee, harguments⟩ := he
    exact safe_bind (safe_evalWith hi hcallee) fun f hf =>
      safe_bind (safe_evalAllWith hi harguments) fun args ha => safe_applyCall hi hp hf ha
  | grouping inner => exact safe_evalWith hi (e := inner) he
  | literal value => exact safe_pure (Literal.obeys_value he)
  | logical left operator right =>
    obtain ⟨hleft, hright⟩ := he
    refine safe_bind (safe_evalWith hi hleft) fun l hl => ?_
    split
    · exact safe_pure hl
    · exact safe_evalWith hi hright
  | unary operator operand =>
    obtain ⟨hu, hoperand⟩ := he
    exact safe_bind (safe_evalWith hi hoperand) fun v _ => safe_applyUnary hu
  | «variable» name => exact safe_lookup he

theorem safe_evalAllWith (hi : SafeCalls d invoke) {es : List Expr} (he : Expr.AllObey d es) :
    Safe d loops calls (fun vs => ∀ v ∈ vs, v.Obeys d) (evalAllWith invoke es) := by
  cases es with
  | nil => exact safe_pure (by simp)
  | cons e es =>
    obtain ⟨hfirst, hrest⟩ := he
    exact safe_bind (safe_evalWith hi hfirst) fun v hv =>
      safe_bind (safe_evalAllWith hi hrest) fun vs hvs =>
        safe_pure (List.forall_mem_cons.2 ⟨hv, hvs⟩)

end

-- A loop takes the breaks out of its body to itself.
theorem safe_iterate {condition : Eval Value} {body : Eval Completion}
    (hc : Safe d (loops + 1) calls (Value.Obeys d) condition)
    (hb : Safe d (loops + 1) calls (Completion.Fits d (loops + 1) calls) body) (rounds : Nat) :
    Safe d (loops + 1) calls (Completion.Fits d loops calls) (iterate condition body rounds) := by
  induction rounds with
  | zero => exact safe_throw trivial
  | succ rounds ih =>
    refine safe_bind hc fun v _ => ?_
    split
    · refine safe_bind hb fun c hfits => ?_
      cases c with
      | normal => exact ih
      | broke => exact safe_pure trivial
      | returned value => exact safe_pure hfits
    · exact safe_pure trivial

mutual

theorem safe_execWith {loops calls : Nat} (hi : SafeCalls d invoke) (rounds : Nat) {s : Stmt}
    (hs : s.Obeys d) :
    Safe d loops calls (Completion.Fits d loops calls) (execWith invoke rounds s) := by
  cases s with
  | block body => exact safe_enclosed (safe_execAllWith hi rounds hs)
  | breakLoop keyword =>
    refine safe_get fun s hlawful => ?_
    split
    · exact safe_fail hs _
    · next hinside => exact safe_pure (.inl (hlawful.loops ▸ hinside))
  | expression value => exact safe_bind (safe_evalWith hi hs) fun _ _ => safe_pure trivial
  | function name parameters body =>
    exact safe_bind (safe_newFunction name parameters hs) fun f hf =>
      safe_bind (safe_define _ hf) fun _ _ => safe_pure trivial
  | branch condition yes no =>
    cases no with
    | none =>
      obtain ⟨hcondition, hyes⟩ := hs
      refine safe_bind (safe_evalWith hi hcondition) fun v _ => ?_
      split
      · exact safe_execWith hi rounds hyes
      · exact safe_pure trivial
    | some no =>
      obtain ⟨hcondition, hyes, hno⟩ := hs
      refine safe_bind (safe_evalWith hi hcondition) fun v _ => ?_
      split
      · exact safe_execWith hi rounds hyes
      · exact safe_execWith hi rounds hno
  | print value =>
    refine safe_bind (safe_evalWith hi hs) fun v hv => ?_
    obtain ⟨text, htext⟩ := hv.display
    rw [htext]
    exact safe_bind (safe_print text) fun _ _ => safe_pure trivial
  | returnFrom keyword value =>
    refine safe_get fun s hlawful => ?_
    cases value with
    | none =>
      split
      · exact safe_fail hs _
      · next hinside => exact safe_pure ⟨trivial, .inl (hlawful.calls ▸ hinside)⟩
    | some value =>
      obtain ⟨hk, hvalue⟩ := hs
      split
      · exact safe_fail hk _
      · next hinside =>
        exact safe_bind (safe_evalWith hi hvalue) fun v hv =>
          safe_pure ⟨hv, .inl (hlawful.calls ▸ hinside)⟩
  | declare name initializer =>
    cases initializer with
    | none => exact safe_bind (safe_define _ trivial) fun _ _ => safe_pure trivial
    | some initializer =>
      exact safe_bind (safe_evalWith hi hs) fun v hv =>
        safe_bind (safe_define _ hv) fun _ _ => safe_pure trivial
  | loop condition body =>
    obtain ⟨hcondition, hbody⟩ := hs
    exact safe_inLoop
      (safe_iterate (safe_evalWith hi hcondition) (safe_execWith hi rounds hbody) rounds)
  | jump kind =>
    cases kind with
    | breakLoop => exact safe_pure (.inr hs)
    | returnNil => exact safe_pure ⟨trivial, .inr hs⟩

theorem safe_execAllWith {loops calls : Nat} (hi : SafeCalls d invoke) (rounds : Nat)
    {ss : List Stmt} (hs : Stmt.AllObey d ss) :
    Safe d loops calls (Completion.Fits d loops calls) (execAllWith invoke rounds ss) := by
  cases ss with
  | nil => exact safe_pure trivial
  | cons s ss =>
    obtain ⟨hfirst, hrest⟩ := hs
    refine safe_bind (safe_execWith hi rounds hfirst) fun c hc => ?_
    cases c with
    | normal => exact safe_execAllWith hi rounds hrest
    | broke => exact safe_pure hc
    | returned value => exact safe_pure hc

end

end

-- The body of a function runs outside of all loops, so that only an unchecked jump breaks out.
theorem safe_leave {loops calls : Nat} {f : Function} {c : Completion}
    (hc : c.Fits d 0 (calls + 1)) : Safe d loops calls (Value.Obeys d) (leave f c) := by
  cases c with
  | normal => exact safe_pure trivial
  | returned value => exact safe_pure hc.1
  | broke => exact safe_throw (hc.resolve_left (by simp))

theorem safe_invoke (fuel : Nat) : SafeCalls d (invoke fuel) := by
  induction fuel with
  | zero => exact fun _ _ _ _ _ _ => safe_throw trivial
  | succ fuel ih =>
    intro loops calls f arguments hf ha
    rw [invoke, callWith_eq]
    exact safe_bind (safe_enter ha (safe_execAllWith ih fuel hf)) fun c hc => safe_leave hc

theorem safe_exec (fuel : Nat) {loops calls : Nat} {s : Stmt} (hs : s.Obeys d) :
    Safe d loops calls (Completion.Fits d loops calls) (exec fuel s) :=
  safe_execWith (safe_invoke fuel) fuel hs

-- Outside of all loops and functions only an unchecked jump ends a program early.
theorem safe_execTop (fuel : Nat) {program : List Stmt} (hp : Stmt.AllObey d program) :
    Safe d 0 0 (fun _ => True) (execTop fuel program) := by
  induction program with
  | nil => exact safe_pure trivial
  | cons s ss ih =>
    obtain ⟨hfirst, hrest⟩ := hp
    refine safe_bind (safe_exec fuel hfirst) fun c hc => ?_
    cases c with
    | normal => exact ih hrest
    | broke => exact safe_throw (hc.resolve_left (by simp))
    | returned value => exact safe_throw (hc.2.resolve_left (by simp))

-- What a run may end with.
def Ending.Allowed (d : Discipline) : Ending → Prop
  | .completed | .exhausted => True
  | .failed e => d.token e.token
  | .faulted f => Permits d f

-- The clock is the only value at first.
theorem all_initial {P : Value → Prop} (h : P (.primitive .clock)) (clock : Nat → Float) :
    (State.initial clock).heap.All P := by
  have hempty : Heap.All P #[] := by
    intro id scope hscope
    simp at hscope
  exact (hempty.create none).define _ _ h

theorem run_allowed (fuel : Nat) {program : List Stmt} (hp : Stmt.AllObey d program) {s : State}
    (hs : s.heap.All (Value.Obeys d)) :
    (run fuel program s).1.Allowed d ∧ (run fuel program s).2.heap.All (Value.Obeys d) := by
  obtain ⟨hended, hresult⟩ := safe_execTop fuel hp s.started ⟨rfl, rfl, hs⟩
  rw [run_eq]
  refine ⟨?_, hended.heap⟩
  rcases h : (execTop fuel program s.started).1 with (e | f | _) | a <;> rw [h] at hresult
  · exact hresult
  · exact hresult
  · exact trivial
  · exact trivial

end Lox.Run
