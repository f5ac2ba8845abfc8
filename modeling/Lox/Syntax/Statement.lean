import Lox.Syntax.Expression

namespace Lox.Syntax

open Rule

-- An expression, unless the given token is next.
def optionalExpression (terminator : TokenKind) (depth : Nat) : Rule (Option Expr) := do
  if (← peek) = some terminator then pure none
  else return some (← expression depth)

def expressionStatement (depth : Nat) : Rule Stmt := do
  let value ← expression depth
  let _ ← expect .semicolon .expressionEnd
  pure (.expression value)

-- The rules below start after the keyword or brace that decides for them.

def variableDeclaration (depth : Nat) : Rule Stmt := do
  let name ← expect .identifier .variableName
  let initializer ←
    match ← take? [.equal] with
    | none => pure none
    | some _ => some <$> expression depth
  let _ ← expect .semicolon .variableEnd
  pure (.declare name initializer)

def functionDeclaration (block : Rule (List Stmt)) (depth : Nat) : Rule Stmt := do
  let name ← expect .identifier .functionName
  let _ ← expect .leftParen .functionParen
  let parameters ← commaList (expect .identifier .parameterName) .parameters depth
  let _ ← expect .rightParen .parametersEnd
  let _ ← expect .leftBrace .functionBody
  let body ← block
  pure (.function name parameters body)

def condition (paren close : SyntaxFault) (depth : Nat) : Rule Expr := do
  let _ ← expect .leftParen paren
  let value ← expression depth
  let _ ← expect .rightParen close
  pure value

-- `else` belongs to the nearest `if`.
def ifStatement (statement : Rule Stmt) (depth : Nat) : Rule Stmt := do
  let condition ← condition .ifParen .ifEnd depth
  let yes ← statement
  match ← take? [.elseKw] with
  | none => pure (.branch condition yes none)
  | some _ => return .branch condition yes (some (← statement))

def whileStatement (statement : Rule Stmt) (depth : Nat) : Rule Stmt := do
  let condition ← condition .whileParen .whileEnd depth
  return .loop condition (← statement)

def printStatement (depth : Nat) : Rule Stmt := do
  let value ← expression depth
  let _ ← expect .semicolon .printEnd
  pure (.print value)

def returnStatement (keyword : Token) (depth : Nat) : Rule Stmt := do
  let value ← optionalExpression .semicolon depth
  let _ ← expect .semicolon .returnEnd
  pure (.returnFrom keyword value)

def breakStatement (keyword : Token) : Rule Stmt := do
  let _ ← expect .semicolon .breakEnd
  pure (.breakLoop keyword)

-- A `for` loop in terms of `while`: the initializer runs once before the loop, in a block around
-- it; the increment runs after the body, in a block with it; a missing condition is true.
def forLoop (initializer : Option Stmt) (condition increment : Option Expr) (body : Stmt) : Stmt :=
  let round :=
    match increment with
    | none => body
    | some increment => .block [body, .expression increment]
  let loop := .loop (condition.getD (.literal (.bool true))) round
  match initializer with
  | none => loop
  | some initializer => .block [initializer, loop]

def forInitializer (depth : Nat) : Rule (Option Stmt) := do
  match ← take? [.varKw, .semicolon] with
  | none => some <$> expressionStatement depth
  | some token =>
    if token.kind = .varKw then some <$> variableDeclaration depth
    else pure none

def forStatement (statement : Rule Stmt) (depth : Nat) : Rule Stmt := do
  let _ ← expect .leftParen .forParen
  let initializer ← forInitializer depth
  let condition ← optionalExpression .semicolon depth
  let _ ← expect .semicolon .forCondition
  let increment ← optionalExpression .rightParen depth
  let _ ← expect .rightParen .forEnd
  return forLoop initializer condition increment (← statement)

-- A statement, given the rules for what is nested in it.
def statementWith (nested : Rule Stmt) (block : Rule (List Stmt)) (depth : Nat) : Rule Stmt := do
  match ← take? [.forKw, .ifKw, .printKw, .returnKw, .whileKw, .breakKw, .leftBrace] with
  | none => expressionStatement depth
  | some token =>
    match token.kind with
    | .forKw => forStatement nested depth
    | .ifKw => ifStatement nested depth
    | .printKw => printStatement depth
    | .returnKw => returnStatement token depth
    | .whileKw => whileStatement nested depth
    | .breakKw => breakStatement token
    | _ => .block <$> block

-- The tokens that only a new statement starts with.
def startsStatement (token : Token) : Bool :=
  token.kind ∈ [.classKw, .funKw, .varKw, .forKw, .ifKw, .whileKw, .printKw, .returnKw]

-- Where reading goes on after a broken statement, given the tokens from where it broke. At least
-- one token is passed over, then all up to a semicolon or to a token that starts a statement.
def recover : List Token → List Token
  | [] => []
  | token :: rest =>
    if token.kind = .semicolon || (rest.head?.any startsStatement) then rest else recover rest

-- A declaration. A broken one is left out: its errors are recorded, and reading goes on behind it.
def declarationWith (statement : Rule Stmt) (block : Rule (List Stmt)) (depth : Nat) :
    Rule (Option Stmt) :=
  fun stop tokens =>
    let rule : Rule Stmt := do
      match ← take? [.funKw, .varKw] with
      | none => statement
      | some token =>
        if token.kind = .funKw then functionDeclaration block depth
        else variableDeclaration depth
    match rule stop tokens with
    | ⟨none, rest, errors⟩ => ⟨some none, recover rest, errors⟩
    | ⟨some s, rest, errors⟩ => ⟨some (some s), rest, errors⟩

-- The declarations up to the end, or up to a closing brace if the flag says that one ends them.
def declarations (declaration : Rule (Option Stmt)) (braceEnds : Bool) :
    (rounds : Nat) → Rule (List Stmt)
  | 0 => pure []
  | rounds + 1 => do
    let next ← peek
    if next = none ∨ (braceEnds ∧ next = some .rightBrace) then
      pure []
    else
      let first ← declaration
      let others ← declarations declaration braceEnds rounds
      pure (first.toList ++ others)

-- The declarations of a block and the brace that closes it.
def blockWith (declaration : Rule (Option Stmt)) (rounds : Nat) : Rule (List Stmt) := do
  let body ← declarations declaration true rounds
  let _ ← expect .rightBrace .blockEnd
  pure body

-- As with expressions, each level of nested statements and blocks reads a token before the next
-- one starts, so the number of tokens left is depth enough.
mutual

def statement : (depth : Nat) → Rule Stmt
  | 0 => fail .noExpression
  | depth + 1 => statementWith (statement depth) (block depth) (depth + 1)

def block : (depth : Nat) → Rule (List Stmt)
  | 0 => fail .blockEnd
  | depth + 1 =>
    let nested := statementWith (statement depth) (block depth) (depth + 1)
    blockWith (declarationWith nested (block depth) (depth + 1)) (depth + 1)

end

def declaration (depth : Nat) : Rule (Option Stmt) :=
  declarationWith (statement depth) (block depth) depth

end Lox.Syntax
