import Lox.Proofs.Run.Restores
import Lox.Session

namespace Lox

-- What a session can be given: a program text, or statements that are already trees.
inductive Given where
  | text (source : String)
  | trees (program : List Stmt)

namespace Session

def take (fuel : Nat) : Given → Session → Step × Session
  | .text source, session => session.run fuel source
  | .trees program, session => session.runTree fuel program

-- What each step of a session does and what it leaves. A step may use as many calls and rounds as
-- stand next to what is given.
def history : List (Nat × Given) → Session → List (Step × Session)
  | [], _ => []
  | (fuel, given) :: others, session =>
    let (step, next) := session.take fuel given
    (step, next) :: history others next

-- A step runs statements in the state that it finds, or none.
theorem state_take (fuel : Nat) (given : Given) (session : Session) :
    (session.take fuel given).2.state = session.state ∨
      ∃ program, (session.take fuel given).2.state = (Run.run fuel program session.state).2 := by
  cases given with
  | trees program => exact .inr ⟨program, rfl⟩
  | text source =>
    rw [take, run]
    dsimp only
    split
    · refine .inr ⟨(Syntax.parse (Source.scan source).tokens).statements, ?_⟩
      split <;> rfl
    · exact .inl rfl

-- What every step keeps holds after every step.
theorem history_invariant {P : Session → Prop}
    (hstep : ∀ fuel given session, P session → P (session.take fuel given).2)
    {steps : List (Nat × Given)} {session : Session} (h : P session) :
    ∀ r ∈ session.history steps, P r.2 := by
  induction steps generalizing session with
  | nil => simp [history]
  | cons first others ih =>
    have hnext := hstep first.1 first.2 session h
    exact List.forall_mem_cons.2 ⟨hnext, ih hnext⟩

end Session

namespace Run

-- A program starts outside of all loops and calls, and ends there.
theorem place_run (fuel : Nat) (program : List Stmt) (s : State) :
    (run fuel program s).2.place = ⟨s.current, 0, 0⟩ := by
  rw [run_eq]
  exact law_restores.execTop fuel program s.started

-- However code ends, in the state of whatever program and in whatever tree, it ends in the scope in
-- which it started and inside as many loops and calls. So whatever a session was given, and however
-- that ended, it stands in the global scope after every step.
theorem place_of_every_exit (fuel : Nat) :
    (∀ (st : Stmt) (s : State), (exec fuel st s).2.place = s.place) ∧
    (∀ (e : Expr) (s : State), (eval fuel e s).2.place = s.place) ∧
    (∀ (f : Function) (arguments : List Value) (s : State),
      (invoke fuel f arguments s).2.place = s.place) ∧
    ∀ (clock : Nat → Float) (steps : List (Nat × Given)),
      ∀ r ∈ (Session.new clock).history steps, r.2.state.place = ⟨globalScope, 0, 0⟩ := by
  have hinvoke := law_restores.invoke fuel
  refine ⟨law_restores.exec fuel, law_restores.evalWith hinvoke, hinvoke, fun clock steps => ?_⟩
  refine Session.history_invariant (P := fun session => session.state.place = ⟨globalScope, 0, 0⟩)
    (fun fuel given session h => ?_) rfl
  obtain hsame | ⟨program, hran⟩ := session.state_take fuel given
  · rw [hsame]
    exact h
  · have hcurrent : session.state.current = globalScope := congrArg Place.current h
    rw [hran, place_run, hcurrent]

-- An error in a loop inside of a call.
theorem place_of_every_exit_failed :
    ∃ r ∈ (Session.new fun _ => 0).history [(3, .text "fun f() \x7b while (true) x; \x7d f();")],
      r.1.diagnostics.length = 1 ∧ r.2.state.place = ⟨globalScope, 0, 0⟩ := by
  have hplace := (place_of_every_exit 3).2.2.2 (fun _ => 0)
    [(3, .text "fun f() \x7b while (true) x; \x7d f();")] _ List.mem_cons_self
  exact ⟨_, List.mem_cons_self, by decide +kernel, hplace⟩

end Run

end Lox
