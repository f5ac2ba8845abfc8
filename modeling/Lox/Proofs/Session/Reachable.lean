import Lox.Proofs.Run.Running
import Lox.Session

namespace Lox

-- A text without errors in its tokens and its grammar.
structure Accepted (source : String) : Prop where
  scan : (Source.scan source).errors = []
  parse : (Syntax.parse (Source.scan source).tokens).errors = []

-- The statements of a text.
def statementsOf (source : String) : List Stmt :=
  (Syntax.parse (Source.scan source).tokens).statements

-- What the author of a text is told about its tokens and its grammar.
def rejectionsOf (source : String) : List Diagnostic :=
  (Source.scan source).errors.map Source.ScanError.diagnostic ++
    (Syntax.parse (Source.scan source).tokens).errors.map Syntax.SyntaxError.diagnostic

theorem rejectionsOf_eq_nil_iff {source : String} : rejectionsOf source = [] ↔ Accepted source := by
  simp only [rejectionsOf, List.append_eq_nil_iff, List.map_eq_nil_iff]
  exact ⟨fun h => ⟨h.1, h.2⟩, fun h => ⟨h.scan, h.parse⟩⟩

namespace Session

-- The sessions that program texts lead to, whatever errors there were on the way.
inductive Reachable (clock : Nat → Float) : Session → Prop
  | new : Reachable clock (.new clock)
  | run {session : Session} (h : Reachable clock session) (fuel : Nat) (source : String) :
      Reachable clock (session.run fuel source).2

-- The flag for an error after a run that ended in some way.
def flagAfter (before : Bool) : Run.Ending → Bool
  | .completed => false
  | .failed _ => true
  | _ => before

-- What a run tells its author.
def diagnosticsOf : Run.Ending → List Diagnostic
  | .failed e => [e.diagnostic]
  | _ => []

theorem run_of_accepted {source : String} (h : Accepted source) (fuel : Nat) (session : Session) :
    session.run fuel source =
      let ended := Run.run fuel (statementsOf source) session.state
      (⟨ended.2.printed, diagnosticsOf ended.1, some ended.1⟩,
        ⟨ended.2, session.hadError, flagAfter session.hadRuntimeError ended.1⟩) := by
  have hempty : (rejectionsOf source).isEmpty := by
    rw [rejectionsOf_eq_nil_iff.2 h]
    rfl
  rw [rejectionsOf] at hempty
  rw [run, if_pos hempty, statementsOf]
  rcases hrun : Run.run fuel (Syntax.parse (Source.scan source).tokens).statements
    session.state with ⟨ending, state⟩
  cases ending <;> simp [runTree, hrun, flagAfter, diagnosticsOf]

theorem run_of_rejected {source : String} (h : ¬ Accepted source) (fuel : Nat)
    (session : Session) :
    session.run fuel source =
      (⟨"", rejectionsOf source, none⟩, { session with hadError := true }) := by
  have hnonempty : ¬ (rejectionsOf source).isEmpty := by
    rwa [List.isEmpty_iff, rejectionsOf_eq_nil_iff]
  rw [rejectionsOf] at hnonempty
  rw [run, if_neg hnonempty, rejectionsOf]

end Session

end Lox
