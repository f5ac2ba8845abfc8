import Lox.Syntax.Program

namespace Lox.Syntax

-- What a walk along a list of tokens does: it looks at the token of an index while it stands
-- somewhere, and reads a declaration from one place up to another.
inductive Event where
  | looked (index : Int) (place : Nat)
  | declared (start stop : Nat)
deriving DecidableEq

-- Where a walk stands, and what it has recorded.
structure Cursor where
  place : Nat
  errors : List SyntaxError
  events : List Event

-- How a step of a walk ends: with a value, with an error that breaks the declaration, at an index
-- that the list does not have, or before it has come to an end of its own.
inductive Outcome (α : Type) where
  | value (a : α)
  | broken
  | outside
  | unfinished

-- A rule of the grammar that finds its tokens by index in the list of all tokens, whatever stands
-- behind the one that marks the end.
def Walk (α : Type) : Type :=
  List Token → Cursor → Outcome α × Cursor

-- The token of an index. Negative ones count from the end of the list.
def tokenAt? (tokens : List Token) (index : Int) : Option Token :=
  if 0 ≤ index then tokens[index.toNat]?
  else if 0 ≤ index + tokens.length then tokens[(index + tokens.length).toNat]?
  else none

namespace Walk

instance : Monad Walk where
  pure a := fun _ cursor => (.value a, cursor)
  bind w f := fun tokens cursor =>
    match w tokens cursor with
    | (.value a, cursor) => f a tokens cursor
    | (.broken, cursor) => (.broken, cursor)
    | (.outside, cursor) => (.outside, cursor)
    | (.unfinished, cursor) => (.unfinished, cursor)

variable {α : Type}

-- The token so many places away.
def look (distance : Int) : Walk Token := fun tokens cursor =>
  let index := cursor.place + distance
  let cursor := { cursor with events := cursor.events ++ [.looked index cursor.place] }
  match tokenAt? tokens index with
  | some token => (.value token, cursor)
  | none => (.outside, cursor)

def peek : Walk Token :=
  look 0

def previous : Walk Token :=
  look (-1)

def step : Walk Unit := fun _ cursor =>
  (.value (), { cursor with place := cursor.place + 1 })

def unfinished : Walk α := fun _ cursor =>
  (.unfinished, cursor)

def report (token : Token) (fault : SyntaxFault) : Walk Unit := fun _ cursor =>
  (.value (), { cursor with errors := cursor.errors ++ [⟨token, fault⟩] })

def raise (token : Token) (fault : SyntaxFault) : Walk α := fun _ cursor =>
  (.broken, { cursor with errors := cursor.errors ++ [⟨token, fault⟩] })

def atEnd : Walk Bool := do
  return decide ((← peek).kind = .eof)

def check (kind : TokenKind) : Walk Bool := do
  if ← atEnd then pure false
  else return decide ((← peek).kind = kind)

def checkAny : List TokenKind → Walk Bool
  | [] => pure false
  | kind :: kinds => do
    if ← check kind then pure true
    else checkAny kinds

def advance : Walk Token := do
  if ← atEnd then previous
  else
    step
    previous

def accept (kinds : List TokenKind) : Walk Bool := do
  if ← checkAny kinds then
    let _ ← advance
    pure true
  else pure false

def consume (kind : TokenKind) (fault : SyntaxFault) : Walk Token := do
  if ← check kind then advance
  else raise (← peek) fault

-- What repeats is bounded by a number of rounds, and what is nested by a depth. A walk that uses
-- them up is unfinished.

-- Tokens are passed over until one of them ended a statement or the next one starts one.
def skip : (rounds : Nat) → Walk Unit
  | 0 => unfinished
  | rounds + 1 => do
    if ← atEnd then pure ()
    else if (← previous).kind = .semicolon then pure ()
    else if startsStatement (← peek) then pure ()
    else
      let _ ← advance
      skip rounds

def synchronize (rounds : Nat) : Walk Unit := do
  let _ ← advance
  skip rounds

def remark (what : ListItem) (count : Nat) : Walk Unit := do
  if listLimit ≤ count then report (← peek) (.tooMany what)
  else pure ()

def itemsFrom (item : Walk α) (what : ListItem) : (rounds : Nat) → (count : Nat) → Walk (List α)
  | 0, _ => unfinished
  | rounds + 1, count => do
    remark what count
    let first ← item
    if ← accept [.comma] then
      return first :: (← itemsFrom item what rounds (count + 1))
    else pure [first]

def commaSeparated (item : Walk α) (what : ListItem) (rounds : Nat) : Walk (List α) := do
  if ← check .rightParen then pure []
  else itemsFrom item what (rounds + 1) 0

def linksFrom (operand : Walk Expr) (node : Expr → Token → Expr → Expr) (kinds : List TokenKind) :
    (rounds : Nat) → (left : Expr) → Walk Expr
  | 0, _ => unfinished
  | rounds + 1, left => do
    if ← accept kinds then
      let operator ← previous
      let right ← operand
      linksFrom operand node kinds rounds (node left operator right)
    else pure left

def leftAssociative (operand : Walk Expr) (node : Expr → Token → Expr → Expr)
    (kinds : List TokenKind) (rounds : Nat) : Walk Expr := do
  linksFrom operand node kinds rounds (← operand)

def primary (expression : Walk Expr) : Walk Expr := do
  let token ← peek
  match token.kind with
  | .number | .string =>
    let _ ← advance
    pure (.literal token.literal)
  | .falseKw =>
    let _ ← advance
    pure (.literal (.bool false))
  | .trueKw =>
    let _ ← advance
    pure (.literal (.bool true))
  | .nilKw =>
    let _ ← advance
    pure (.literal .nil)
  | _ =>
    if ← accept [.identifier] then pure (.variable token)
    else if ← accept [.leftParen] then
      let inner ← expression
      let _ ← consume .rightParen .groupEnd
      pure (.grouping inner)
    else raise token .noExpression

def callsFrom (expression : Walk Expr) : (rounds : Nat) → (callee : Expr) → Walk Expr
  | 0, _ => unfinished
  | rounds + 1, callee => do
    if ← accept [.leftParen] then
      let arguments ← commaSeparated expression .arguments rounds
      let paren ← consume .rightParen .argumentsEnd
      callsFrom expression rounds (.call callee paren arguments)
    else pure callee

def call (expression : Walk Expr) (rounds : Nat) : Walk Expr := do
  callsFrom expression rounds (← primary expression)

def unary (expression : Walk Expr) (depth : Nat) : (rounds : Nat) → Walk Expr
  | 0 => unfinished
  | rounds + 1 => do
    if ← accept [.bang, .minus] then
      let operator ← previous
      return .unary operator (← unary expression depth rounds)
    else call expression depth

def factor (expression : Walk Expr) (depth : Nat) : Walk Expr :=
  leftAssociative (unary expression depth depth) .binary [.slash, .star] depth

def term (expression : Walk Expr) (depth : Nat) : Walk Expr :=
  leftAssociative (factor expression depth) .binary [.minus, .plus] depth

def comparison (expression : Walk Expr) (depth : Nat) : Walk Expr :=
  leftAssociative (term expression depth) .binary [.greater, .greaterEqual, .less, .lessEqual] depth

def equality (expression : Walk Expr) (depth : Nat) : Walk Expr :=
  leftAssociative (comparison expression depth) .binary [.bangEqual, .equalEqual] depth

def conjunction (expression : Walk Expr) (depth : Nat) : Walk Expr :=
  leftAssociative (equality expression depth) .logical [.andKw] depth

def disjunction (expression : Walk Expr) (depth : Nat) : Walk Expr :=
  leftAssociative (conjunction expression depth) .logical [.orKw] depth

def assignment (expression : Walk Expr) (depth : Nat) : Walk Expr := do
  let target ← disjunction expression depth
  if ← accept [.equal] then
    let equal ← previous
    let value ← expression
    match target with
    | .variable name => pure (.assign name value)
    | _ =>
      report equal .assignmentTarget
      pure target
  else pure target

def expression : (depth : Nat) → Walk Expr
  | 0 => unfinished
  | depth + 1 => assignment (expression depth) (depth + 1)

def optionalExpression (terminator : TokenKind) (depth : Nat) : Walk (Option Expr) := do
  if ← check terminator then pure none
  else return some (← expression depth)

def expressionStatement (depth : Nat) : Walk Stmt := do
  let value ← expression depth
  let _ ← consume .semicolon .expressionEnd
  pure (.expression value)

def initializer (depth : Nat) : Walk (Option Expr) := do
  if ← accept [.equal] then some <$> expression depth
  else pure none

def variableDeclaration (depth : Nat) : Walk Stmt := do
  let name ← consume .identifier .variableName
  let value ← initializer depth
  let _ ← consume .semicolon .variableEnd
  pure (.declare name value)

def functionDeclaration (block : Walk (List Stmt)) (depth : Nat) : Walk Stmt := do
  let name ← consume .identifier .functionName
  let _ ← consume .leftParen .functionParen
  let parameters ← commaSeparated (consume .identifier .parameterName) .parameters depth
  let _ ← consume .rightParen .parametersEnd
  let _ ← consume .leftBrace .functionBody
  return .function name parameters (← block)

def condition (paren close : SyntaxFault) (depth : Nat) : Walk Expr := do
  let _ ← consume .leftParen paren
  let value ← expression depth
  let _ ← consume .rightParen close
  pure value

def ifStatement (statement : Walk Stmt) (depth : Nat) : Walk Stmt := do
  let condition ← condition .ifParen .ifEnd depth
  let yes ← statement
  if ← accept [.elseKw] then return .branch condition yes (some (← statement))
  else pure (.branch condition yes none)

def whileStatement (statement : Walk Stmt) (depth : Nat) : Walk Stmt := do
  let condition ← condition .whileParen .whileEnd depth
  return .loop condition (← statement)

def printStatement (depth : Nat) : Walk Stmt := do
  let value ← expression depth
  let _ ← consume .semicolon .printEnd
  pure (.print value)

def returnStatement (depth : Nat) : Walk Stmt := do
  let keyword ← previous
  let value ← optionalExpression .semicolon depth
  let _ ← consume .semicolon .returnEnd
  pure (.returnFrom keyword value)

def breakStatement : Walk Stmt := do
  let keyword ← previous
  let _ ← consume .semicolon .breakEnd
  pure (.breakLoop keyword)

def forInitializer (depth : Nat) : Walk (Option Stmt) := do
  if ← accept [.varKw] then some <$> variableDeclaration depth
  else if ← accept [.semicolon] then pure none
  else some <$> expressionStatement depth

def forStatement (statement : Walk Stmt) (depth : Nat) : Walk Stmt := do
  let _ ← consume .leftParen .forParen
  let initializer ← forInitializer depth
  let condition ← optionalExpression .semicolon depth
  let _ ← consume .semicolon .forCondition
  let increment ← optionalExpression .rightParen depth
  let _ ← consume .rightParen .forEnd
  return forLoop initializer condition increment (← statement)

def statementWith (nested : Walk Stmt) (block : Walk (List Stmt)) (depth : Nat) : Walk Stmt := do
  match (← peek).kind with
  | .forKw => let _ ← advance; forStatement nested depth
  | .ifKw => let _ ← advance; ifStatement nested depth
  | .printKw => let _ ← advance; printStatement depth
  | .returnKw => let _ ← advance; returnStatement depth
  | .whileKw => let _ ← advance; whileStatement nested depth
  | .breakKw => let _ ← advance; breakStatement
  | .leftBrace => let _ ← advance; .block <$> block
  | _ => expressionStatement depth

-- A broken declaration is passed over.
def attempt (w : Walk Stmt) (rounds : Nat) : Walk (Option Stmt) := fun tokens cursor =>
  match w tokens cursor with
  | (.value s, cursor) => (.value (some s), cursor)
  | (.broken, cursor) => ((fun _ => none) <$> synchronize rounds) tokens cursor
  | (.outside, cursor) => (.outside, cursor)
  | (.unfinished, cursor) => (.unfinished, cursor)

-- A declaration is recorded with the places where it starts and ends.
def recorded (w : Walk α) : Walk α := fun tokens cursor =>
  let (outcome, after) := w tokens cursor
  (outcome, { after with events := after.events ++ [.declared cursor.place after.place] })

def plainDeclaration (statement : Walk Stmt) (block : Walk (List Stmt)) (depth : Nat) :
    Walk Stmt := do
  if ← accept [.funKw] then functionDeclaration block depth
  else if ← accept [.varKw] then variableDeclaration depth
  else statement

def declarationWith (statement : Walk Stmt) (block : Walk (List Stmt)) (depth : Nat) :
    Walk (Option Stmt) :=
  recorded (attempt (plainDeclaration statement block depth) depth)

def ended (braceEnds : Bool) : Walk Bool := do
  if ← (if braceEnds then check .rightBrace else pure false) then pure true
  else atEnd

def declarations (declaration : Walk (Option Stmt)) (braceEnds : Bool) :
    (rounds : Nat) → Walk (List Stmt)
  | 0 => unfinished
  | rounds + 1 => do
    if ← ended braceEnds then pure []
    else
      let first ← declaration
      let others ← declarations declaration braceEnds rounds
      pure (first.toList ++ others)

def blockWith (declaration : Walk (Option Stmt)) (rounds : Nat) : Walk (List Stmt) := do
  let body ← declarations declaration true rounds
  let _ ← consume .rightBrace .blockEnd
  pure body

mutual

def statement : (depth : Nat) → Walk Stmt
  | 0 => unfinished
  | depth + 1 => statementWith (statement depth) (block depth) (depth + 1)

def block : (depth : Nat) → Walk (List Stmt)
  | 0 => unfinished
  | depth + 1 =>
    let nested := statementWith (statement depth) (block depth) (depth + 1)
    blockWith (declarationWith nested (block depth) (depth + 1)) (depth + 1)

end

def declaration (depth : Nat) : Walk (Option Stmt) :=
  declarationWith (statement depth) (block depth) depth

-- A program is read by a walk from the first token.
def program (depth : Nat) : Walk (List Stmt) :=
  declarations (declaration depth) false depth

end Walk

end Lox.Syntax
