import Lox.Proofs.Grammar.Production
import Lox.Proofs.Grammar.Valued
import Lox.Proofs.Syntax.Draft

namespace Lox.Grammar

open Syntax
open Form (token phrase many)

-- One item, and any number of others with a comma before each.
def anyListOf (item : Form Phrase) : Form Phrase :=
  item ++ many (token .comma ++ item)

-- The grammar of programs in which anything may stand before the `=` of an assignment, and any
-- number of items in a list.
def relaxed : Phrase → Form Phrase
  | .assignment => phrase .logicOr ++ Form.optional (token .equal ++ phrase .assignment)
  | .parameters => anyListOf (token .identifier)
  | .arguments => anyListOf (phrase .expression)
  | name => production name

-- What the tokens of a phrase come to.
def Meaning : Phrase → Type
  | .program | .block => List DraftStmt
  | .declaration | .funDecl | .varDecl | .statement | .exprStmt | .forStmt | .ifStmt | .printStmt
  | .returnStmt | .whileStmt | .breakStmt => DraftStmt
  | .expression | .assignment | .logicOr | .logicAnd | .equality | .comparison | .term | .factor
  | .unary | .call | .primary => DraftExpr
  | .parameters => List Token
  | .arguments => List DraftExpr

-- An operand and what follows it on its level, gathered to the left.
def gathered {α : Type} (node : DraftExpr → Token → DraftExpr → DraftExpr) (operator : α → Token)
    (chain : DraftExpr × List (α × DraftExpr)) : DraftExpr :=
  chain.2.foldl (fun left link => node left (operator link.1) link.2) chain.1

-- A callee and the argument lists behind it, each of which calls what stands before it.
def called (callee : DraftExpr) (calls : List ((Token × Option (List DraftExpr)) × Token)) :
    DraftExpr :=
  calls.foldl (fun callee call => .call callee call.2 (call.1.2.getD [])) callee

-- The one token that a choice of tokens is.
def either {α : Type} (left : α → Token) : α ⊕ Token → Token :=
  Sum.elim left id

def operatorOf : Token ⊕ Token → Token :=
  either id

def comparisonOf : ((Token ⊕ Token) ⊕ Token) ⊕ Token → Token :=
  either (either (either id))

-- How the meaning of a phrase is put together.
def action : ∀ name, (relaxed name).Value Meaning → Meaning name
  | .program, body => body
  | .declaration, v => Sum.elim (Sum.elim id id) id v
  | .funDecl, (((((_, name), _), parameters), _), body) =>
    DraftStmt.function name (parameters.getD []) body
  | .varDecl, (((_, name), initializer), _) => DraftStmt.declare name (initializer.map Prod.snd)
  | .statement, v =>
    Sum.elim (Sum.elim (Sum.elim (Sum.elim (Sum.elim (Sum.elim (Sum.elim id id) id) id) id) id) id)
      DraftStmt.block v
  | .exprStmt, (value, _) => DraftStmt.expression value
  | .forStmt, (((((((_, _), initializer), condition), _), increment), _), body) =>
    DraftStmt.forLoop (Sum.elim (Sum.elim some some) (fun _ => none) initializer) condition
      increment body
  | .ifStmt, (((((_, _), condition), _), yes), no) =>
    DraftStmt.branch condition yes (no.map Prod.snd)
  | .printStmt, ((_, value), _) => DraftStmt.print value
  | .returnStmt, ((keyword, value), _) => DraftStmt.returnFrom keyword value
  | .whileStmt, ((((_, _), condition), _), body) => DraftStmt.loop condition body
  | .breakStmt, (keyword, _) => DraftStmt.breakLoop keyword
  | .block, ((_, body), _) => body
  | .expression, value => value
  | .assignment, (target, none) => target
  | .assignment, (target, some (equal, value)) => DraftExpr.assign target equal value
  | .logicOr, v => gathered .logical id v
  | .logicAnd, v => gathered .logical id v
  | .equality, v => gathered .binary operatorOf v
  | .comparison, v => gathered .binary comparisonOf v
  | .term, v => gathered .binary operatorOf v
  | .factor, v => gathered .binary operatorOf v
  | .unary, Sum.inl (operator, operand) => DraftExpr.unary (operatorOf operator) operand
  | .unary, Sum.inr value => value
  | .call, (callee, calls) => called callee calls
  | .primary, Sum.inl (Sum.inl (Sum.inl (Sum.inl (Sum.inl (Sum.inl number))))) =>
    DraftExpr.literal number.literal
  | .primary, Sum.inl (Sum.inl (Sum.inl (Sum.inl (Sum.inl (Sum.inr string))))) =>
    DraftExpr.literal string.literal
  | .primary, Sum.inl (Sum.inl (Sum.inl (Sum.inl (Sum.inr _)))) => DraftExpr.literal (.bool true)
  | .primary, Sum.inl (Sum.inl (Sum.inl (Sum.inr _))) => DraftExpr.literal (.bool false)
  | .primary, Sum.inl (Sum.inl (Sum.inr _)) => DraftExpr.literal .nil
  | .primary, Sum.inl (Sum.inr ((_, inner), _)) => DraftExpr.grouping inner
  | .primary, Sum.inr name => DraftExpr.variable name
  | .parameters, (first, others) => first :: others.map Prod.snd
  | .arguments, (first, others) => first :: others.map Prod.snd

end Lox.Grammar
