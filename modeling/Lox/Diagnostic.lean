import Lox.Token

namespace Lox

-- The stage of a program's life that a diagnostic is about.
inductive Stage where
  | unspecified
  | scanning
  | parsing
  | running
deriving DecidableEq, Repr

-- Something a program's author is told about.
structure Diagnostic where
  stage : Stage
  line : Int
  token : Option Token
  message : String
deriving DecidableEq

-- Where in its line a diagnostic points.
def Diagnostic.location (d : Diagnostic) : String :=
  match d.token with
  | none => ""
  | some token => if token.kind = .eof then " at end" else " at '" ++ token.lexeme ++ "'"

-- The line of text that reports a diagnostic.
def Diagnostic.report (d : Diagnostic) : String :=
  let label := if d.stage = .running then "RuntimeError" else "Error"
  "[Line " ++ toString d.line ++ "] " ++ label ++ d.location ++ ": " ++ d.message ++ "\n"

-- The reports of several diagnostics, in order.
def reports (ds : List Diagnostic) : String :=
  String.join (ds.map Diagnostic.report)

end Lox
