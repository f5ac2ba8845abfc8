import Lox.Proofs.Run.Nesting
import Lox.Proofs.Session.Reachable

namespace Lox.Session

-- Runs a program text with an alarm for every break and return that fails though it should not by
-- where it stands in its tree, or does not though it should.
def runWatched (alarm : Run.Eval Run.Completion) (fuel : Nat) (source : String)
    (session : Session) : Step × Session :=
  if (Source.scan source).errors = [] ∧ (Syntax.parse (Source.scan source).tokens).errors = [] then
    let (ending, state) := Run.runWatched alarm fuel (statementsOf source) session.state
    (⟨state.printed, diagnosticsOf ending, some ending⟩,
      ⟨state, session.hadError, flagAfter session.hadRuntimeError ending⟩)
  else
    session.run fuel source

-- Whatever the alarm is, no run of any text in any session is different with it: no break and no
-- return ever sets it off. The depths that are counted while a program runs thus say the same as
-- its tree, whatever calls, loops, errors and programs came before.
theorem runWatched_eq_run (alarm : Run.Eval Run.Completion) (session : Session) (fuel : Nat)
    (source : String) :
    session.runWatched alarm fuel source = session.run fuel source ∧
      Run.RuntimeFault.breakOutsideLoop.message = "Cannot break outside of a loop." ∧
      Run.RuntimeFault.returnOutsideFunction.message = "Cannot return from top-level code." := by
  refine ⟨?_, rfl, rfl⟩
  rw [runWatched]
  split
  · next h => rw [Run.runWatched_eq, run_of_accepted ⟨h.1, h.2⟩]
  · rfl

end Lox.Session
