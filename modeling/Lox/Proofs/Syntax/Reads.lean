import Lox.Syntax.Statement
import Mathlib.Tactic.Tauto

namespace Lox.Syntax

-- Neighbouring tokens, the tree that they stand for, and the errors in them that do not keep them
-- from standing for it.
structure Span (α : Type) where
  tokens : List Token
  tree : α
  errors : List SyntaxError

-- The error for an item that `count` others precede in its list.
def excess (what : ListItem) (count : Nat) (tokens : List Token) : List SyntaxError :=
  if listLimit ≤ count then tokens.head?.toList.map (⟨·, .tooMany what⟩) else []

-- Items with a comma between each two, of which `count` others precede the first.
inductive Listed {α : Type} (what : ListItem) : (count : Nat) → List (Span α) → Span (List α) → Prop
  | last {count} (item : Span α) :
      Listed what count [item]
        ⟨item.tokens, [item.tree], excess what count item.tokens ++ item.errors⟩
  | next {count items others} (item : Span α) {comma : Token} (hc : comma.kind = .comma)
      (hs : Listed what (count + 1) items others) :
      Listed what count (item :: items) ⟨item.tokens ++ comma :: others.tokens,
        item.tree :: others.tree, excess what count item.tokens ++ item.errors ++ others.errors⟩

-- What can stand between the parentheses of a list.
def InParens {α : Type} (what : ListItem) (items : List (Span α)) (list : Span (List α)) : Prop :=
  (items = [] ∧ list = ⟨[], [], []⟩) ∨ Listed what 0 items list

-- The levels of precedence on which operators chain operands.
inductive Chain where
  | disjunction
  | conjunction
  | equality
  | comparison
  | term
  | factor
deriving DecidableEq, Repr

-- All levels of precedence.
inductive Level where
  | assignment
  | chain (c : Chain)
  | unary
  | call
  | primary
deriving DecidableEq, Repr

namespace Chain

def operand : Chain → Level
  | .disjunction => .chain .conjunction
  | .conjunction => .chain .equality
  | .equality => .chain .comparison
  | .comparison => .chain .term
  | .term => .chain .factor
  | .factor => .unary

def kinds : Chain → List TokenKind
  | .disjunction => [.orKw]
  | .conjunction => [.andKw]
  | .equality => [.bangEqual, .equalEqual]
  | .comparison => [.greater, .greaterEqual, .less, .lessEqual]
  | .term => [.minus, .plus]
  | .factor => [.slash, .star]

def node : Chain → Expr → Token → Expr → Expr
  | .disjunction | .conjunction => .logical
  | _ => .binary

end Chain

-- The literal that a token stands for.
def constant? (t : Token) : Option Literal :=
  match t.kind with
  | .number | .string => some t.literal
  | .trueKw => some (.bool true)
  | .falseKw => some (.bool false)
  | .nilKw => some .nil
  | _ => none

-- The parentheses of a call and what stands between them.
structure Application where
  opening : Token
  arguments : List (Span Expr)
  inner : Span (List Expr)
  closing : Token

namespace Application

def tokens (a : Application) : List Token :=
  a.opening :: (a.inner.tokens ++ [a.closing])

def node (callee : Expr) (a : Application) : Expr :=
  .call callee a.closing a.inner.tree

structure Proper (a : Application) : Prop where
  opening : a.opening.kind = .leftParen
  inner : InParens .arguments a.arguments a.inner
  closing : a.closing.kind = .rightParen

end Application

-- An operator and the operand after it.
structure Link where
  operator : Token
  operand : Span Expr

def Link.tokens (l : Link) : List Token :=
  l.operator :: l.operand.tokens

-- How tokens stand for an expression of a level. The only errors are targets of assignments that
-- are no variables, and items beyond the limit of their list.
inductive Reads : Level → Span Expr → Prop
  | literal {t : Token} {value : Literal} (hv : constant? t = some value) :
      Reads .primary ⟨[t], .literal value, []⟩
  | name {t : Token} (ht : t.kind = .identifier) : Reads .primary ⟨[t], .variable t, []⟩
  | grouping {opening closing : Token} {inner : Span Expr} (ho : opening.kind = .leftParen)
      (hc : closing.kind = .rightParen) (hi : Reads .assignment inner) :
      Reads .primary ⟨opening :: (inner.tokens ++ [closing]), .grouping inner.tree, inner.errors⟩
  | call {callee : Span Expr} {calls : List Application} (hf : Reads .primary callee)
      (hc : ∀ c ∈ calls, c.Proper) (ha : ∀ c ∈ calls, ∀ a ∈ c.arguments, Reads .assignment a) :
      Reads .call ⟨callee.tokens ++ calls.flatMap Application.tokens,
        calls.foldl Application.node callee.tree, callee.errors ++ calls.flatMap (·.inner.errors)⟩
  | unary {operators : List Token} {operand : Span Expr}
      (ho : ∀ t ∈ operators, t.kind ∈ [.bang, .minus]) (hr : Reads .call operand) :
      Reads .unary ⟨operators ++ operand.tokens, operators.foldr .unary operand.tree,
        operand.errors⟩
  | chain {c : Chain} {first : Span Expr} {links : List Link} (hf : Reads c.operand first)
      (ho : ∀ l ∈ links, l.operator.kind ∈ c.kinds) (hl : ∀ l ∈ links, Reads c.operand l.operand) :
      Reads (.chain c) ⟨first.tokens ++ links.flatMap Link.tokens,
        links.foldl (fun e l => c.node e l.operator l.operand.tree) first.tree,
        first.errors ++ links.flatMap (·.operand.errors)⟩
  | plain {s : Span Expr} (hs : Reads (.chain .disjunction) s) : Reads .assignment s
  | assign {target value : Span Expr} {name equal : Token}
      (ht : Reads (.chain .disjunction) target) (hn : target.tree = .variable name)
      (he : equal.kind = .equal) (hv : Reads .assignment value) :
      Reads .assignment ⟨target.tokens ++ equal :: value.tokens, .assign name value.tree,
        target.errors ++ value.errors⟩
  | misassign {target value : Span Expr} {equal : Token} (ht : Reads (.chain .disjunction) target)
      (hn : ∀ name, target.tree ≠ .variable name) (he : equal.kind = .equal)
      (hv : Reads .assignment value) :
      Reads .assignment ⟨target.tokens ++ equal :: value.tokens, target.tree,
        target.errors ++ value.errors ++ [⟨equal, .assignmentTarget⟩]⟩

-- An expression or nothing.
inductive ReadsOptional : Span (Option Expr) → Prop
  | absent : ReadsOptional ⟨[], none, []⟩
  | present {s : Span Expr} (hs : Reads .assignment s) :
      ReadsOptional ⟨s.tokens, some s.tree, s.errors⟩

-- An expression in parentheses that a statement depends on.
inductive ReadsCondition : Span Expr → Prop
  | mk {opening closing : Token} {inner : Span Expr} (ho : opening.kind = .leftParen)
      (hi : Reads .assignment inner) (hc : closing.kind = .rightParen) :
      ReadsCondition ⟨opening :: (inner.tokens ++ [closing]), inner.tree, inner.errors⟩

-- An expression that is a statement of its own.
inductive ReadsBare : Span Stmt → Prop
  | mk {value : Span Expr} {semicolon : Token} (hv : Reads .assignment value)
      (hs : semicolon.kind = .semicolon) :
      ReadsBare ⟨value.tokens ++ [semicolon], .expression value.tree, value.errors⟩

-- The declaration of a variable, after its keyword.
inductive ReadsVariable : Span Stmt → Prop
  | plain {name semicolon : Token} (hn : name.kind = .identifier)
      (hs : semicolon.kind = .semicolon) :
      ReadsVariable ⟨[name, semicolon], .declare name none, []⟩
  | initialized {name equal semicolon : Token} {value : Span Expr} (hn : name.kind = .identifier)
      (he : equal.kind = .equal) (hv : Reads .assignment value)
      (hs : semicolon.kind = .semicolon) :
      ReadsVariable ⟨name :: equal :: (value.tokens ++ [semicolon]),
        .declare name (some value.tree), value.errors⟩

-- What a `for` loop starts with, up to its first semicolon.
inductive ReadsInitializer : Span (Option Stmt) → Prop
  | absent {semicolon : Token} (hs : semicolon.kind = .semicolon) :
      ReadsInitializer ⟨[semicolon], none, []⟩
  | declared {keyword : Token} {d : Span Stmt} (hk : keyword.kind = .varKw)
      (hd : ReadsVariable d) : ReadsInitializer ⟨keyword :: d.tokens, some d.tree, d.errors⟩
  | bare {s : Span Stmt} (hs : ReadsBare s) : ReadsInitializer ⟨s.tokens, some s.tree, s.errors⟩

-- Where a statement stands: on its own among others, or as a part of a branch or a loop, where
-- nothing may be declared.
inductive Slot where
  | free
  | nested
deriving DecidableEq, Repr

-- Whether the statement may end with an `if` to which an `else` after it would belong.
inductive Tail where
  | closed
  | dangling
deriving DecidableEq, Repr

-- How tokens stand for a statement.
inductive ReadsStmt : Slot → Tail → Span Stmt → Prop
  | bare {s : Span Stmt} (hs : ReadsBare s) : ReadsStmt .nested .closed s
  | print {keyword semicolon : Token} {value : Span Expr} (hk : keyword.kind = .printKw)
      (hv : Reads .assignment value) (hs : semicolon.kind = .semicolon) :
      ReadsStmt .nested .closed
        ⟨keyword :: (value.tokens ++ [semicolon]), .print value.tree, value.errors⟩
  | returnFrom {keyword semicolon : Token} {value : Span (Option Expr)}
      (hk : keyword.kind = .returnKw) (hv : ReadsOptional value)
      (hs : semicolon.kind = .semicolon) :
      ReadsStmt .nested .closed
        ⟨keyword :: (value.tokens ++ [semicolon]), .returnFrom keyword value.tree, value.errors⟩
  | breakLoop {keyword semicolon : Token} (hk : keyword.kind = .breakKw)
      (hs : semicolon.kind = .semicolon) :
      ReadsStmt .nested .closed ⟨[keyword, semicolon], .breakLoop keyword, []⟩
  | block {opening closing : Token} {body : List (Span Stmt)} (ho : opening.kind = .leftBrace)
      (hb : ∀ s ∈ body, ReadsStmt .free .dangling s) (hc : closing.kind = .rightBrace) :
      ReadsStmt .nested .closed ⟨opening :: (body.flatMap Span.tokens ++ [closing]),
        .block (body.map Span.tree), body.flatMap Span.errors⟩
  | loop {keyword : Token} {condition : Span Expr} {body : Span Stmt} {tail : Tail}
      (hk : keyword.kind = .whileKw) (hc : ReadsCondition condition)
      (hb : ReadsStmt .nested tail body) :
      ReadsStmt .nested tail ⟨keyword :: (condition.tokens ++ body.tokens),
        .loop condition.tree body.tree, condition.errors ++ body.errors⟩
  | forLoop {keyword opening semicolon closing : Token} {initializer : Span (Option Stmt)}
      {condition increment : Span (Option Expr)} {body : Span Stmt} {tail : Tail}
      (hk : keyword.kind = .forKw) (ho : opening.kind = .leftParen)
      (hi : ReadsInitializer initializer) (hc : ReadsOptional condition)
      (hs : semicolon.kind = .semicolon) (hn : ReadsOptional increment)
      (hp : closing.kind = .rightParen) (hb : ReadsStmt .nested tail body) :
      ReadsStmt .nested tail ⟨keyword :: opening :: (initializer.tokens ++ condition.tokens ++
          semicolon :: (increment.tokens ++ closing :: body.tokens)),
        Syntax.forLoop initializer.tree condition.tree increment.tree body.tree,
        initializer.errors ++ condition.errors ++ increment.errors ++ body.errors⟩
  | ifThen {keyword : Token} {condition : Span Expr} {yes : Span Stmt}
      (hk : keyword.kind = .ifKw) (hc : ReadsCondition condition)
      (hy : ReadsStmt .nested .dangling yes) :
      ReadsStmt .nested .dangling ⟨keyword :: (condition.tokens ++ yes.tokens),
        .branch condition.tree yes.tree none, condition.errors ++ yes.errors⟩
  | ifElse {keyword other : Token} {condition : Span Expr} {yes no : Span Stmt} {tail : Tail}
      (hk : keyword.kind = .ifKw) (hc : ReadsCondition condition)
      (hy : ReadsStmt .nested .closed yes) (he : other.kind = .elseKw)
      (hn : ReadsStmt .nested tail no) :
      ReadsStmt .nested tail ⟨keyword :: (condition.tokens ++ yes.tokens ++ other :: no.tokens),
        .branch condition.tree yes.tree (some no.tree),
        condition.errors ++ yes.errors ++ no.errors⟩
  | weaken {slot : Slot} {s : Span Stmt} (hs : ReadsStmt slot .closed s) :
      ReadsStmt slot .dangling s
  | free {tail : Tail} {s : Span Stmt} (hs : ReadsStmt .nested tail s) : ReadsStmt .free tail s
  | declared {keyword : Token} {d : Span Stmt} (hk : keyword.kind = .varKw)
      (hd : ReadsVariable d) :
      ReadsStmt .free .closed ⟨keyword :: d.tokens, d.tree, d.errors⟩
  | function {keyword name opening closing brace last : Token} {items : List (Span Token)}
      {parameters : Span (List Token)} {body : List (Span Stmt)} (hk : keyword.kind = .funKw)
      (hn : name.kind = .identifier) (ho : opening.kind = .leftParen)
      (hi : ∀ p ∈ items, p.tree.kind = .identifier ∧ p = ⟨[p.tree], p.tree, []⟩)
      (hp : InParens .parameters items parameters) (hc : closing.kind = .rightParen)
      (hs : brace.kind = .leftBrace) (hb : ∀ s ∈ body, ReadsStmt .free .dangling s)
      (hl : last.kind = .rightBrace) :
      ReadsStmt .free .closed ⟨keyword :: name :: opening :: (parameters.tokens ++
          closing :: brace :: (body.flatMap Span.tokens ++ [last])),
        .function name parameters.tree (body.map Span.tree),
        parameters.errors ++ body.flatMap Span.errors⟩

-- How tokens stand for the declarations of a program.
structure ReadsProgram (body : List (Span Stmt)) (tokens : List Token) : Prop where
  tokens : tokens = body.flatMap Span.tokens
  clean : body.flatMap Span.errors = []
  declarations : ∀ s ∈ body, ReadsStmt .free .dangling s

-- The kinds of tokens that an expression can start with.
def expressionStarters : List TokenKind :=
  [.number, .string, .trueKw, .falseKw, .nilKw, .identifier, .leftParen, .bang, .minus]

theorem kind_of_constant? {t : Token} {value : Literal} (h : constant? t = some value) :
    t.kind ∈ [.number, .string, .trueKw, .falseKw, .nilKw] := by
  unfold constant? at h
  split at h <;> simp_all

theorem Reads.head {level : Level} {s : Span Expr} (h : Reads level s) :
    ∃ t ts, s.tokens = t :: ts ∧ t.kind ∈ expressionStarters := by
  induction h with
  | literal hv =>
    have hk := kind_of_constant? hv
    refine ⟨_, [], rfl, ?_⟩
    simp only [List.mem_cons, List.not_mem_nil, or_false] at hk
    simp only [expressionStarters, List.mem_cons]
    tauto
  | name ht => exact ⟨_, [], rfl, by simp [expressionStarters, ht]⟩
  | grouping ho _ _ _ => exact ⟨_, _, rfl, by simp [expressionStarters, ho]⟩
  | call _ _ _ ih _ | chain _ _ _ ih _ =>
    obtain ⟨t, ts, ht, hk⟩ := ih
    exact ⟨t, _, by rw [ht]; rfl, hk⟩
  | @unary operators operand ho _ ih =>
    cases operators with
    | nil => exact ih
    | cons t ts =>
      have hk := ho t (by simp)
      refine ⟨t, _, rfl, ?_⟩
      simp only [List.mem_cons, List.not_mem_nil, or_false] at hk
      obtain hk | hk := hk <;> simp [expressionStarters, hk]
  | plain _ ih => exact ih
  | assign _ _ _ _ ih _ | misassign _ _ _ _ ih _ =>
    obtain ⟨t, ts, ht, hk⟩ := ih
    exact ⟨t, _, by rw [ht]; rfl, hk⟩

-- A call does not start with a prefix operator.
theorem Reads.call_head {s : Span Expr} (h : Reads .call s) :
    ∃ t ts, s.tokens = t :: ts ∧ t.kind ∉ [.bang, .minus] := by
  cases h with
  | @call callee calls hf _ _ =>
    cases hf with
    | @literal t value hv =>
      have hk := kind_of_constant? hv
      refine ⟨t, _, rfl, fun h => ?_⟩
      simp only [List.mem_cons, List.not_mem_nil, or_false] at h
      obtain h | h := h <;> simp [h] at hk
    | name ht => exact ⟨_, _, rfl, by simp [ht]⟩
    | grouping ho _ _ => exact ⟨_, _, rfl, by simp [ho]⟩

theorem Reads.ne_nil {level : Level} {s : Span Expr} (h : Reads level s) : s.tokens ≠ [] := by
  obtain ⟨t, ts, ht, -⟩ := h.head
  simp [ht]

theorem ReadsBare.head {s : Span Stmt} (h : ReadsBare s) :
    ∃ t ts, s.tokens = t :: ts ∧ t.kind ∈ expressionStarters := by
  cases h with
  | mk hv _ =>
    obtain ⟨t, ts, ht, hk⟩ := hv.head
    exact ⟨t, _, by rw [ht]; rfl, hk⟩

-- The kinds of tokens that no statement starts with, or at least none in a branch or a loop.
def Slot.barred : Slot → List TokenKind
  | .free => [.elseKw, .rightBrace]
  | .nested => [.elseKw, .rightBrace, .funKw, .varKw]

theorem ReadsStmt.head {slot : Slot} {tail : Tail} {s : Span Stmt} (h : ReadsStmt slot tail s) :
    ∃ t ts, s.tokens = t :: ts ∧ t.kind ∉ slot.barred := by
  induction h with
  | bare hs =>
    obtain ⟨t, ts, ht, hk⟩ := hs.head
    exact ⟨t, ts, ht, fun hb => by revert hk hb; cases t.kind <;> decide⟩
  | print hk _ _ | returnFrom hk _ _ | breakLoop hk _ | block hk _ _ _ | loop hk _ _ _
  | forLoop hk _ _ _ _ _ _ _ _ | ifThen hk _ _ _ | ifElse hk _ _ _ _ _ _ | declared hk _
  | function hk _ _ _ _ _ _ _ _ _ => exact ⟨_, _, rfl, by rw [hk]; decide⟩
  | weaken _ ih => exact ih
  | free _ ih =>
    obtain ⟨t, ts, ht, hk⟩ := ih
    exact ⟨t, ts, ht, fun hb => hk (by revert hb; cases t.kind <;> decide)⟩

theorem ReadsStmt.ne_nil {slot : Slot} {tail : Tail} {s : Span Stmt}
    (h : ReadsStmt slot tail s) : s.tokens ≠ [] := by
  obtain ⟨t, ts, ht, -⟩ := h.head
  simp [ht]

end Lox.Syntax
