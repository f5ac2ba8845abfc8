import Lox.Diagnostic
import Lox.Number.Nearest
import Lox.Source.Piece

namespace Lox.Source

-- Why a text is not made of tokens.
inductive ScanFault where
  | unexpected (c : Char)
  | unterminatedString
  | unterminatedComment
deriving DecidableEq, Repr

def ScanFault.message : ScanFault → String
  | .unexpected c => "Unexpected character '" ++ String.singleton c ++ "'."
  | .unterminatedString => "Unterminated string."
  | .unterminatedComment => "Unterminated block comment."

structure ScanError where
  line : Int
  fault : ScanFault
deriving DecidableEq, Repr

def ScanError.diagnostic (e : ScanError) : Diagnostic :=
  ⟨.scanning, e.line, none, e.fault.message⟩

-- The value of a token's text: that of a number, or what stands between the quotes of a string.
def literalOf (kind : TokenKind) (text : List Char) : Literal :=
  match kind with
  | .number => .number (Number.read text)
  | .string => .string (String.ofList (text.drop 1).dropLast)
  | _ => .nil

-- What a piece adds to the tokens and errors, if it ends on the given line.
def Piece.token? (p : Piece) (line : Int) : Option Token :=
  match p.kind with
  | .token kind => some ⟨kind, String.ofList p.text, literalOf kind p.text, line⟩
  | _ => none

def Piece.error? (p : Piece) (line : Int) : Option ScanError :=
  match p.kind with
  | .stray => some ⟨line, .unexpected (p.text.headD ' ')⟩
  | .openString => some ⟨line, .unterminatedString⟩
  | .openComment => some ⟨line, .unterminatedComment⟩
  | _ => none

-- How many lines further a piece ends than it starts.
def Piece.lineFeeds (p : Piece) : Int :=
  p.text.count '\n'

structure Scan where
  tokens : List Token
  errors : List ScanError
deriving DecidableEq

-- The tokens and errors of consecutive pieces of which the first starts on the given line. A
-- token that marks the end follows the last piece.
def collect : (line : Int) → List Piece → Scan
  | line, [] => ⟨[⟨.eof, "", .nil, line⟩], []⟩
  | line, p :: ps =>
    let line := line + p.lineFeeds
    let rest := collect line ps
    ⟨(p.token? line).toList ++ rest.tokens, (p.error? line).toList ++ rest.errors⟩

-- The tokens of a program text, and everything in it that belongs to no token, comment or white
-- space. An error costs no token, so that one scan finds every error.
def scan (source : String) : Scan :=
  collect 1 (pieces source.toList)

end Lox.Source
