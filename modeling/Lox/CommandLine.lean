import Lox.Session
import Lox.Text.Blank
import Lox.Text.LineBreak

namespace Lox.CommandLine

-- What a command leaves behind that comes to its end.
structure Outcome where
  exit : Nat
  stdout : String
  stderr : String
deriving DecidableEq, Repr

-- Why a script cannot be read.
inductive Unreadable where
  | missing
  | directory
  | notDirectory
  | other (reason : String)
deriving DecidableEq, Repr

def Unreadable.message : Unreadable → String
  | .missing => "No such file or directory"
  | .directory => "Is a directory"
  | .notDirectory => "Not a directory"
  | .other reason => reason

def usage : String := "Usage: lox [script]\n"

def banner : String := "Lox REPL (Ctrl+D to exit)\n"

def prompt : String := "> "

-- What a conversation is held over. A line is read with the line feed that ends it, and the end of
-- the input as an empty text.
structure Console (m : Type → Type) where
  getLine : m String
  print : String → m Unit
  printError : String → m Unit

-- The line that was read, without the line feed. There is none at the end of the input.
def entered? (read : String) : Option String :=
  if read = "" then none else some (String.ofList (read.toList.takeWhile (· ≠ '\n')))

-- Answers a line that was typed in. Blank lines are passed over, and a bad line does not end the
-- session.
def answer (fuel : Nat) (line : String) (session : Session) : Step × Session :=
  if line.toList.all Text.isBlank then
    (⟨"", [], none⟩, session.clearFlags)
  else
    let (step, session) := session.run fuel line
    (step, session.clearFlags)

section

variable {m : Type → Type} [Monad m] (console : Console m)

-- Answers line after line, and tells whether the end of the input was reached. It is not reached
-- behind a line that does not finish.
def converse (fuel : Nat) : (turns : Nat) → Session → m Bool
  | 0, _ => pure false
  | turns + 1, session => do
    console.print prompt
    match entered? (← console.getLine) with
    | none =>
      console.print "\n"
      pure true
    | some line =>
      let (step, session) := answer fuel line session
      console.print step.printed
      console.printError (reports step.diagnostics)
      if step.finished then converse fuel turns session else pure false

-- A conversation from its beginning.
def interact (fuel turns : Nat) (clock : Nat → Float) : m Bool := do
  console.print banner
  converse console fuel turns (.new clock)

end

-- What is left to read in a conversation, and what was written in it.
structure Transcript where
  unread : List Char
  stdout : String
  stderr : String

-- Conversations over a text that is there from the beginning.
def recorded : Console (StateM Transcript) where
  getLine := modifyGet fun t =>
    let (line, rest) := Text.firstLine t.unread
    (String.ofList line, { t with unread := rest })
  print text := modify fun t => { t with stdout := t.stdout ++ text }
  printError text := modify fun t => { t with stderr := t.stderr ++ text }

-- Runs a script. None is the outcome if it is not a text or does not finish.
def runScript (fuel : Nat) (clock : Nat → Float) (script : ByteArray) : Option Outcome := do
  let text ← String.fromUTF8? script
  let source := String.ofList (Text.normalizeNewlines text.toList)
  let (step, session) := (Session.new clock).run fuel source
  if step.finished then
    some ⟨session.exitCode, step.printed, reports step.diagnostics⟩
  else none

-- The whole command: without arguments it converses, with one it runs that script. What is typed in
-- is a text, since a console decodes what it reads, and a text has no more lines than characters.
def run (fuel : Nat) (clock : Nat → Float) (read : String → Except Unreadable ByteArray)
    (arguments : List String) (input : String) : Option Outcome :=
  match arguments with
  | [] =>
    let (ended, t) := (interact recorded fuel (input.length + 1) clock).run ⟨input.toList, "", ""⟩
    if ended then some ⟨0, t.stdout, t.stderr⟩ else none
  | [path] =>
    match read path with
    | .ok script => runScript fuel clock script
    | .error reason =>
      some ⟨64, "", "ERROR: Could not read '" ++ path ++ "': " ++ reason.message ++ "\n"⟩
  | _ => some ⟨64, usage, ""⟩

end Lox.CommandLine
