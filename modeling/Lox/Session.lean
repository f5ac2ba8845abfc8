import Lox.Run.Program
import Lox.Source.Scan
import Lox.Syntax.Program

namespace Lox

-- Programs that run one after the other and share their global names, and whether any of them
-- was rejected and the last accepted one failed.
structure Session where
  state : Run.State
  hadError : Bool
  hadRuntimeError : Bool

-- What one program did: the text it printed, what its author is told, and how it ended if it ran.
structure Step where
  printed : String
  diagnostics : List Diagnostic
  ending : Option Run.Ending

-- Whether a program that ran came to its last statement or to an error.
def Step.finished (step : Step) : Bool :=
  match step.ending with
  | some (.faulted _) | some .exhausted => false
  | _ => true

namespace Session

def new (clock : Nat → Float) : Session :=
  ⟨.initial clock, false, false⟩

-- Runs a program that is already a tree.
def runTree (fuel : Nat) (program : List Stmt) (session : Session) : Step × Session :=
  let (ending, state) := Run.run fuel program session.state
  let diagnostics :=
    match ending with
    | .failed e => [e.diagnostic]
    | _ => []
  (⟨state.printed, diagnostics, some ending⟩, { session with state := state })

-- Runs a program text. A text with errors in its tokens or its grammar is rejected: it does not
-- run, and both kinds of errors are told, those of the tokens first.
def run (fuel : Nat) (source : String) (session : Session) : Step × Session :=
  let scan := Source.scan source
  let program := Syntax.parse scan.tokens
  let rejections :=
    scan.errors.map Source.ScanError.diagnostic ++ program.errors.map Syntax.SyntaxError.diagnostic
  if rejections.isEmpty then
    let (step, session) := runTree fuel program.statements session
    match step.ending with
    | some .completed => (step, { session with hadRuntimeError := false })
    | some (.failed _) => (step, { session with hadRuntimeError := true })
    | _ => (step, session)
  else
    (⟨"", rejections, none⟩, { session with hadError := true })

def clearFlags (session : Session) : Session :=
  { session with hadError := false, hadRuntimeError := false }

-- The exit status after a session: 65 after a rejected program, else 70 after an error.
def exitCode (session : Session) : Nat :=
  if session.hadError then 65 else if session.hadRuntimeError then 70 else 0

end Session

end Lox
