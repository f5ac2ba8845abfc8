import Lox.CommandLine

namespace Lox.CommandLine

-- More calls and rounds than any run can make, and more lines than anyone types.
def boundless : Nat := Nat.pow 10 18

-- The clock starts at the machine's own time, in seconds, and advances by about a microsecond
-- with each reading.
def startClock : IO (Nat → Float) := do
  let start := (← IO.monoNanosNow).toFloat / 1000000000.0
  pure fun n => start + n.toFloat / 1048576.0

def unreadable : IO.Error → Unreadable
  | .noFileOrDirectory _ _ _ => .missing
  | .inappropriateType _ code _ => if code = 21 then .directory else .notDirectory
  | .permissionDenied _ _ _ => .other "Permission denied"
  | .invalidArgument _ _ details => .other details
  | e => .other (toString e)

-- Conversations with whoever types.
def terminal : Console IO where
  getLine := do
    let stdin ← IO.getStdin
    stdin.getLine
  print text := do
    IO.print text
    (← IO.getStdout).flush
  printError := IO.eprint

-- The bytes of a script, or why there are none.
def readScript (path : String) : IO (Except Unreadable ByteArray) := do
  match ← (IO.FS.readBinFile path).toBaseIO with
  | .ok bytes => return .ok bytes
  | .error e => return .error (unreadable e)

def command (arguments : List String) : IO UInt32 := do
  let clock ← startClock
  match arguments with
  | [] => return if ← interact terminal boundless boundless clock then 0 else 1
  | _ =>
    let script ←
      match arguments with
      | [path] => readScript path
      | _ => pure (.error .missing)
    match run boundless clock (fun _ => script) arguments "" with
    | some outcome =>
      IO.print outcome.stdout
      IO.eprint outcome.stderr
      return outcome.exit.toUInt32
    | none =>
      IO.eprintln "The script is not a text in UTF-8, or it does not finish."
      return 1

end Lox.CommandLine

def main (arguments : List String) : IO UInt32 :=
  Lox.CommandLine.command arguments
