import Lox.Proofs.Run.Restores

namespace Lox.Run

open Eval

-- Where a statement stands in its tree: whether there is a loop around it on the way out to the
-- nearest function, and whether there is a function around it.
structure Nesting where
  inLoop : Bool
  inFunction : Bool
deriving DecidableEq, Repr

namespace Nesting

-- Outside of everything, and right inside of a function.
def top : Nesting := ⟨false, false⟩

def body : Nesting := ⟨false, true⟩

def loop (n : Nesting) : Nesting :=
  { n with inLoop := true }

end Nesting

def raises (e : RuntimeError) : Except Halt Completion → Bool
  | .error (.error other) => other = e
  | _ => false

-- Runs code that should raise an error or should not. If it does otherwise, an alarm runs in its
-- place.
def watch (alarm : Eval Completion) (e : RuntimeError) (expected : Bool) (m : Eval Completion) :
    Eval Completion :=
  fun s => if raises e (m s).1 = expected then m s else alarm s

mutual

-- Executes a statement as always, but watches every break and return on the way: whether it fails
-- has to follow from where it stands in its tree.
def execWatched (alarm : Eval Completion) (invoke : Function → List Value → Eval Value)
    (rounds : Nat) : Nesting → Stmt → Eval Completion
  | n, .block body => enclosed (execAllWatched alarm invoke rounds n body)
  | n, .breakLoop keyword =>
    watch alarm ⟨keyword, .breakOutsideLoop⟩ (!n.inLoop)
      (execWith invoke rounds (.breakLoop keyword))
  | _, .expression value => execWith invoke rounds (.expression value)
  | _, .function name parameters body => execWith invoke rounds (.function name parameters body)
  | n, .branch condition yes none => do
    if (← evalWith invoke condition).isTruthy then execWatched alarm invoke rounds n yes
    else pure .normal
  | n, .branch condition yes (some no) => do
    if (← evalWith invoke condition).isTruthy then execWatched alarm invoke rounds n yes
    else execWatched alarm invoke rounds n no
  | _, .print value => execWith invoke rounds (.print value)
  | n, .returnFrom keyword value =>
    watch alarm ⟨keyword, .returnOutsideFunction⟩ (!n.inFunction)
      (execWith invoke rounds (.returnFrom keyword value))
  | _, .declare name initializer => execWith invoke rounds (.declare name initializer)
  | n, .loop condition body =>
    inLoop
      (iterate (evalWith invoke condition) (execWatched alarm invoke rounds n.loop body) rounds)
  | _, .jump kind => execWith invoke rounds (.jump kind)

def execAllWatched (alarm : Eval Completion) (invoke : Function → List Value → Eval Value)
    (rounds : Nat) : Nesting → List Stmt → Eval Completion
  | _, [] => pure .normal
  | n, s :: ss => do
    match ← execWatched alarm invoke rounds n s with
    | .normal => execAllWatched alarm invoke rounds n ss
    | .broke => pure .broke
    | .returned value => pure (.returned value)

end

-- A function's body is watched as what it is in its tree, wherever the call stands.
def invokeWatched (alarm : Eval Completion) : (fuel : Nat) → Function → List Value → Eval Value
  | 0, _, _ => throw .exhausted
  | fuel + 1, f, arguments =>
    callWith (execAllWatched alarm (invokeWatched alarm fuel) fuel .body) f arguments

def execTopWatched (alarm : Eval Completion) (fuel : Nat) : List Stmt → Eval Unit
  | [] => pure ()
  | s :: ss => do
    match ← execWatched alarm (invokeWatched alarm fuel) fuel .top s with
    | .normal => execTopWatched alarm fuel ss
    | .broke => throw (.fault (.reachedTop .breakLoop))
    | .returned _ => throw (.fault (.reachedTop .returnNil))

def runWatched (alarm : Eval Completion) (fuel : Nat) (program : List Stmt) (s : State) :
    Ending × State :=
  let (result, s) := execTopWatched alarm fuel program s.started
  (.of result, s)

-- The depths that are counted while code runs tell where it stands.
structure Nesting.Agrees (n : Nesting) (s : State) : Prop where
  loops : s.loopDepth = 0 ↔ n.inLoop = false
  calls : s.functionDepth = 0 ↔ n.inFunction = false

theorem Nesting.Agrees.of_place {n : Nesting} {s t : State} (h : n.Agrees s)
    (hplace : t.place = s.place) : n.Agrees t := by
  obtain ⟨-, hloops, hcalls⟩ := Place.mk.inj hplace
  exact ⟨by rw [hloops]; exact h.loops, by rw [hcalls]; exact h.calls⟩

-- Code that cannot be told apart in states that agree with a place in a tree.
def EqAt {α : Type} (n : Nesting) (m m' : Eval α) : Prop :=
  ∀ s, n.Agrees s → m s = m' s

section

variable {α β : Type} {n : Nesting}

theorem eqAt_refl (m : Eval α) : EqAt n m m :=
  fun _ _ => rfl

theorem eqAt_bind {m m' : Eval α} {f f' : α → Eval β} (hm : EqAt n m m') (hr : Restores m')
    (hf : ∀ a, EqAt n (f a) (f' a)) : EqAt n (m >>= f) (m' >>= f') := by
  intro s hs
  have hplace := hr s
  rw [run_bind, run_bind, hm s hs]
  cases hrun : m' s with
  | mk result t =>
    rw [hrun] at hplace
    cases result with
    | error h => rfl
    | ok a => exact hf a t (hs.of_place hplace)

theorem eqAt_inLoop {m m' : Eval Completion} (hm : EqAt n.loop m m') :
    EqAt n (inLoop m) (inLoop m') := by
  intro s hs
  have hlooping : n.loop.Agrees s.looping := ⟨by simp [State.looping, Nesting.loop], hs.calls⟩
  rw [run_inLoop, run_inLoop, hm _ hlooping]

theorem eqAt_enclosed {m m' : Eval Completion} (hm : EqAt n m m') :
    EqAt n (enclosed m) (enclosed m') := by
  intro s hs
  rw [run_enclosed, run_enclosed, hm s.enclosed ⟨hs.loops, hs.calls⟩]

-- A call starts right inside of its function, whatever is around the call.
theorem enter_congr {run run' : List Stmt → Eval Completion} {f : Function}
    (h : EqAt .body (run f.body) (run' f.body)) (arguments : List Value) :
    enter run f arguments = enter run' f arguments := by
  funext s
  have hbody : Nesting.body.Agrees (s.entered f arguments) :=
    ⟨by simp [State.entered, Nesting.body], by simp [State.entered, Nesting.body]⟩
  rw [run_enter, run_enter, h _ hbody]

theorem eqAt_iterate {condition : Eval Value} {body body' : Eval Completion}
    (hc : Restores condition) (hb : EqAt n body body') (hr : Restores body') (rounds : Nat) :
    EqAt n (iterate condition body rounds) (iterate condition body' rounds) := by
  induction rounds with
  | zero => exact eqAt_refl _
  | succ rounds ih =>
    refine eqAt_bind (eqAt_refl _) hc fun v => ?_
    split
    · refine eqAt_bind hb hr fun c => ?_
      cases c with
      | normal => exact ih
      | broke => exact eqAt_refl _
      | returned value => exact eqAt_refl _
    · exact eqAt_refl _

end

-- Code that inside of a function never fails as if it were outside of all functions.
def Quiet {α : Type} (m : Eval α) : Prop :=
  ∀ s, s.functionDepth ≠ 0 → (m s).2.functionDepth = s.functionDepth ∧
    ∀ t, (m s).1 ≠ .error (.error ⟨t, .returnOutsideFunction⟩)

theorem law_quiet : Law Quiet where
  pure _ _ _ := ⟨rfl, by simp⟩
  bind {_ _ m f} hm hf s hs := by
    obtain ⟨hdepth, hquiet⟩ := hm s hs
    rw [run_bind]
    cases hrun : m s with
    | mk result t =>
      rw [hrun] at hdepth hquiet
      cases result with
      | error h => exact ⟨hdepth, fun t ht => hquiet t (by simpa using ht)⟩
      | ok a =>
        obtain ⟨hdepth', hquiet'⟩ := hf a t (by rwa [hdepth])
        exact ⟨hdepth'.trans hdepth, hquiet'⟩
  fail token fault hordinary s _ := by
    refine ⟨rfl, fun t ht => ?_⟩
    simp only [run_fail, Except.error.injEq, Halt.error.injEq, RuntimeError.mk.injEq] at ht
    rw [ht.2] at hordinary
    cases hordinary
  fault _ _ _ := ⟨rfl, by simp⟩
  exhausted _ _ := ⟨rfl, by simp⟩
  lookup name s _ := by
    rw [run_lookup]
    cases s.heap.get? s.current name.lexeme <;> exact ⟨rfl, by simp⟩
  assign name value s _ := by
    rw [run_assign]
    cases s.heap.owner? name.lexeme s.current <;> exact ⟨rfl, by simp⟩
  define _ _ _ _ := ⟨rfl, by simp⟩
  newFunction _ _ _ _ _ := ⟨rfl, by simp⟩
  print _ _ _ := ⟨rfl, by simp⟩
  readClock _ _ := ⟨rfl, by simp⟩
  checkLoop keyword m hm s hs := by
    rw [checkLoop, run_get_bind]
    split
    · exact ⟨rfl, by simp⟩
    · exact hm s hs
  checkFunction keyword m hm s hs := by
    rw [checkFunction, run_get_bind, if_neg hs]
    exact hm s hs
  inLoop {m} hm s hs := hm s.looping hs
  enclosed {m} hm s hs := hm s.enclosed hs
  enter {run} f arguments hm s _ := by
    obtain ⟨hdepth, hquiet⟩ := hm (s.entered f arguments) (by simp [State.entered])
    have hentered : (s.entered f arguments).functionDepth = s.functionDepth + 1 := rfl
    rw [run_enter]
    refine ⟨?_, hquiet⟩
    dsimp only
    omega

theorem raises_eq_true {e : RuntimeError} {r : Except Halt Completion} :
    raises e r = true ↔ r = .error (.error e) := by
  rcases r with (other | f | _) | c <;> simp [raises]

theorem raises_eq_false {e : RuntimeError} {r : Except Halt Completion} :
    raises e r = false ↔ r ≠ .error (.error e) := by
  rw [← Bool.not_eq_true, raises_eq_true]

theorem watch_eq {alarm m : Eval Completion} {e : RuntimeError} {expected : Bool} {s : State}
    (h : raises e (m s).1 = expected) : watch alarm e expected m s = m s :=
  if_pos h

section

variable (alarm : Eval Completion) {invoke : Function → List Value → Eval Value}

-- A break fails exactly where no loop is around it.
theorem eqAt_breakLoop (rounds : Nat) (n : Nesting) (keyword : Token) :
    EqAt n (execWatched alarm invoke rounds n (.breakLoop keyword))
      (execWith invoke rounds (.breakLoop keyword)) := by
  intro s hs
  rw [execWatched]
  apply watch_eq
  have hrun : execWith invoke rounds (.breakLoop keyword) = checkLoop keyword (pure .broke) := rfl
  rw [hrun, checkLoop, run_get_bind]
  by_cases hdepth : s.loopDepth = 0
  · rw [if_pos hdepth, hs.loops.1 hdepth]
    simp [raises]
  · have hinside : n.inLoop = true := by simpa using fun h => hdepth (hs.loops.2 h)
    rw [if_neg hdepth, hinside]
    rfl

-- A return fails in this way exactly where no function is around it; what the value of a return
-- runs into is another matter.
theorem eqAt_returnFrom (hq : ∀ f arguments, Quiet (invoke f arguments)) (rounds : Nat)
    (n : Nesting) (keyword : Token) (value : Option Expr) :
    EqAt n (execWatched alarm invoke rounds n (.returnFrom keyword value))
      (execWith invoke rounds (.returnFrom keyword value)) := by
  intro s hs
  rw [execWatched]
  apply watch_eq
  by_cases hdepth : s.functionDepth = 0
  · rw [hs.calls.1 hdepth]
    have hrun : execWith invoke rounds (.returnFrom keyword value) s =
        (.error (.error ⟨keyword, .returnOutsideFunction⟩), s) := by
      cases value <;> rw [execWith, run_get_bind, if_pos hdepth, run_fail]
    simp [hrun, raises]
  · have hinside : n.inFunction = true := by simpa using fun h => hdepth (hs.calls.2 h)
    obtain ⟨-, hquiet⟩ := law_quiet.execWith hq rounds (.returnFrom keyword value) s hdepth
    rw [hinside]
    exact raises_eq_false.2 (hquiet keyword)

mutual

theorem eqAt_execWatched (hr : ∀ f arguments, Restores (invoke f arguments))
    (hq : ∀ f arguments, Quiet (invoke f arguments)) (rounds : Nat) (n : Nesting) (s : Stmt) :
    EqAt n (execWatched alarm invoke rounds n s) (execWith invoke rounds s) := by
  cases s with
  | block body =>
    rw [execWatched]
    exact eqAt_enclosed (eqAt_execAllWatched hr hq rounds n body)
  | breakLoop keyword => exact eqAt_breakLoop alarm rounds n keyword
  | branch condition yes no =>
    have hcondition := law_restores.evalWith hr condition
    cases no with
    | none =>
      rw [execWatched, execWith]
      refine eqAt_bind (eqAt_refl _) hcondition fun v => ?_
      split
      · exact eqAt_execWatched hr hq rounds n yes
      · exact eqAt_refl _
    | some no =>
      rw [execWatched, execWith]
      refine eqAt_bind (eqAt_refl _) hcondition fun v => ?_
      split
      · exact eqAt_execWatched hr hq rounds n yes
      · exact eqAt_execWatched hr hq rounds n no
  | returnFrom keyword value => exact eqAt_returnFrom alarm hq rounds n keyword value
  | loop condition body =>
    rw [execWatched, execWith]
    exact eqAt_inLoop (eqAt_iterate (law_restores.evalWith hr condition)
      (eqAt_execWatched hr hq rounds n.loop body) (law_restores.execWith hr rounds body) rounds)
  | _ =>
    rw [execWatched]
    exact eqAt_refl _

theorem eqAt_execAllWatched (hr : ∀ f arguments, Restores (invoke f arguments))
    (hq : ∀ f arguments, Quiet (invoke f arguments)) (rounds : Nat) (n : Nesting)
    (ss : List Stmt) :
    EqAt n (execAllWatched alarm invoke rounds n ss) (execAllWith invoke rounds ss) := by
  cases ss with
  | nil => exact eqAt_refl _
  | cons s ss =>
    rw [execAllWatched, execAllWith]
    refine eqAt_bind (eqAt_execWatched hr hq rounds n s) (law_restores.execWith hr rounds s)
      fun c => ?_
    cases c with
    | normal => exact eqAt_execAllWatched hr hq rounds n ss
    | broke => exact eqAt_refl _
    | returned value => exact eqAt_refl _

end

theorem invokeWatched_eq (fuel : Nat) : invokeWatched alarm fuel = Run.invoke fuel := by
  induction fuel with
  | zero => rfl
  | succ fuel ih =>
    funext f arguments
    rw [invokeWatched, Run.invoke, callWith_eq, callWith_eq, ih]
    rw [enter_congr (eqAt_execAllWatched alarm (law_restores.invoke fuel) (law_quiet.invoke fuel)
      fuel .body f.body)]

theorem eqAt_execTopWatched (fuel : Nat) (program : List Stmt) :
    EqAt .top (execTopWatched alarm fuel program) (execTop fuel program) := by
  induction program with
  | nil => exact eqAt_refl _
  | cons s ss ih =>
    rw [execTopWatched, execTop, invokeWatched_eq]
    refine eqAt_bind (eqAt_execWatched alarm (law_restores.invoke fuel) (law_quiet.invoke fuel)
      fuel .top s) (law_restores.exec fuel s) fun c => ?_
    cases c with
    | normal => exact ih
    | broke => exact eqAt_refl _
    | returned value => exact eqAt_refl _

-- A program starts outside of everything, so that the alarm is never heard.
theorem runWatched_eq (fuel : Nat) (program : List Stmt) (s : State) :
    runWatched alarm fuel program s = run fuel program s := by
  have hstart : Nesting.top.Agrees s.started := ⟨by simp [State.started, Nesting.top],
    by simp [State.started, Nesting.top]⟩
  rw [run_eq, runWatched, eqAt_execTopWatched alarm fuel program _ hstart]
  rfl

end

end Lox.Run
