import Lox.Diagnostic

namespace Lox.Syntax

-- What a list in parentheses holds.
inductive ListItem where
  | parameters
  | arguments
deriving DecidableEq, Repr

def ListItem.name : ListItem → String
  | .parameters => "parameters"
  | .arguments => "arguments"

-- How many items a list in parentheses may hold.
def listLimit : Nat := 255

-- What can be wrong with a program's grammar.
inductive SyntaxFault where
  | functionName
  | functionParen
  | parameterName
  | parametersEnd
  | functionBody
  | variableName
  | variableEnd
  | forParen
  | forCondition
  | forEnd
  | ifParen
  | ifEnd
  | whileParen
  | whileEnd
  | printEnd
  | returnEnd
  | breakEnd
  | blockEnd
  | expressionEnd
  | argumentsEnd
  | groupEnd
  | noExpression
  | assignmentTarget
  | tooMany (items : ListItem)
deriving DecidableEq, Repr

def SyntaxFault.message : SyntaxFault → String
  | .functionName => "Expect function name."
  | .functionParen => "Expect '(' after function name."
  | .parameterName => "Expect parameter name."
  | .parametersEnd => "Expect ')' after parameters."
  | .functionBody => "Expect '\x7b' before function body."
  | .variableName => "Expect variable name."
  | .variableEnd => "Expect ';' after variable declaration."
  | .forParen => "Expect '(' after 'for'."
  | .forCondition => "Expect ';' after loop condition."
  | .forEnd => "Expect ')' after for clauses."
  | .ifParen => "Expect '(' after 'if'."
  | .ifEnd => "Expect ')' after if condition."
  | .whileParen => "Expect '(' after 'while'."
  | .whileEnd => "Expect ')' after while condition."
  | .printEnd => "Expect ';' after value."
  | .returnEnd => "Expect ';' after return value."
  | .breakEnd => "Expect ';' after 'break'."
  | .blockEnd => "Expect '\x7d' after block."
  | .expressionEnd => "Expect ';' after expression."
  | .argumentsEnd => "Expect ')' after arguments."
  | .groupEnd => "Expect ')' after expression."
  | .noExpression => "Expect expression."
  | .assignmentTarget => "Invalid assignment target."
  | .tooMany items => "Can't have more than " ++ toString listLimit ++ " " ++ items.name ++ "."

structure SyntaxError where
  token : Token
  fault : SyntaxFault
deriving DecidableEq

def SyntaxError.diagnostic (e : SyntaxError) : Diagnostic :=
  ⟨.parsing, e.token.line, some e.token, e.fault.message⟩

-- What a rule of the grammar makes of the tokens in front of it: a value unless it gave up, the
-- tokens that it left, and the errors that it found on the way.
structure Reading (α : Type) where
  value : Option α
  rest : List Token
  errors : List SyntaxError

-- A rule of the grammar reads tokens up to the end of the program, which is not among them; the
-- token that marks the end serves only to say where something is missing.
def Rule (α : Type) : Type :=
  (stop : Token) → List Token → Reading α

namespace Rule

instance : Monad Rule where
  pure a := fun _ tokens => ⟨some a, tokens, []⟩
  bind r f := fun stop tokens =>
    match r stop tokens with
    | ⟨none, rest, errors⟩ => ⟨none, rest, errors⟩
    | ⟨some a, rest, errors⟩ =>
      let next := f a stop rest
      ⟨next.value, next.rest, errors ++ next.errors⟩

instance : LawfulMonad Rule :=
  LawfulMonad.mk' Rule
    (by
      intro α r
      funext stop tokens
      simp only [Functor.map]
      cases r stop tokens with
      | mk value rest errors =>
        cases value with
        | none => rfl
        | some a => exact congrArg (Reading.mk (some a) rest) (List.append_nil errors))
    (by
      intro α β a f
      funext stop tokens
      simp [bind, pure])
    (by
      intro α β γ r f g
      funext stop tokens
      simp only [bind]
      cases r stop tokens with
      | mk value rest errors =>
        cases value with
        | none => rfl
        | some a =>
          dsimp only
          cases f a stop rest with
          | mk value rest errors => cases value <;> simp)

-- The next token, or the one that marks the end.
def here : Rule Token :=
  fun stop tokens => ⟨some (tokens.headD stop), tokens, []⟩

-- The kind of the next token, if the end is not reached.
def peek : Rule (Option TokenKind) :=
  fun _ tokens => ⟨some (tokens.head?.map Token.kind), tokens, []⟩

-- The next token if it is of one of the given kinds; it then counts as read.
def take? (kinds : List TokenKind) : Rule (Option Token) :=
  fun _ tokens =>
    match tokens with
    | [] => ⟨some none, [], []⟩
    | token :: rest =>
      if token.kind ∈ kinds then ⟨some (some token), rest, []⟩
      else ⟨some none, token :: rest, []⟩

-- All tokens up to the first that is of none of the given kinds.
def takeAll (kinds : List TokenKind) : Rule (List Token) :=
  fun _ tokens =>
    ⟨some (tokens.takeWhile (·.kind ∈ kinds)), tokens.dropWhile (·.kind ∈ kinds), []⟩

-- Records an error at a token and goes on.
def complain (token : Token) (fault : SyntaxFault) : Rule Unit :=
  fun _ tokens => ⟨some (), tokens, [⟨token, fault⟩]⟩

-- Records an error at the next token and gives up.
def fail (fault : SyntaxFault) : Rule α :=
  fun stop tokens => ⟨none, tokens, [⟨tokens.headD stop, fault⟩]⟩

-- The next token, which has to be of the given kind.
def expect (kind : TokenKind) (fault : SyntaxFault) : Rule Token := do
  match ← take? [kind] with
  | some token => pure token
  | none => fail fault

end Rule

end Lox.Syntax
