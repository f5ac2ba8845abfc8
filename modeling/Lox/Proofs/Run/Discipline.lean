import Lox.Proofs.Run.Running
import Lox.Proofs.Value.Heap

namespace Lox

-- What trees may hold: the tokens that errors can point at, the literals and the operators, and
-- whether they may jump out of code without a check.
structure Discipline where
  token : Token → Prop
  literal : Literal → Prop
  binary : TokenKind → Prop
  unary : TokenKind → Prop
  jump : Prop
  defined : ∀ u, ¬ literal (.undefined u)

mutual

def Expr.Obeys (d : Discipline) : Expr → Prop
  | .assign name value => d.token name ∧ value.Obeys d
  | .binary left operator right =>
    d.token operator ∧ d.binary operator.kind ∧ left.Obeys d ∧ right.Obeys d
  | .call callee paren arguments => d.token paren ∧ callee.Obeys d ∧ Expr.AllObey d arguments
  | .grouping inner => inner.Obeys d
  | .literal value => d.literal value
  | .logical left _ right => left.Obeys d ∧ right.Obeys d
  | .unary operator operand => d.unary operator.kind ∧ operand.Obeys d
  | .variable name => d.token name

def Expr.AllObey (d : Discipline) : List Expr → Prop
  | [] => True
  | e :: es => e.Obeys d ∧ AllObey d es

end

mutual

def Stmt.Obeys (d : Discipline) : Stmt → Prop
  | .block body => Stmt.AllObey d body
  | .breakLoop keyword => d.token keyword
  | .expression value => value.Obeys d
  | .function _ _ body => Stmt.AllObey d body
  | .branch condition yes none => condition.Obeys d ∧ yes.Obeys d
  | .branch condition yes (some no) => condition.Obeys d ∧ yes.Obeys d ∧ no.Obeys d
  | .print value => value.Obeys d
  | .returnFrom keyword none => d.token keyword
  | .returnFrom keyword (some value) => d.token keyword ∧ value.Obeys d
  | .declare _ none => True
  | .declare _ (some value) => value.Obeys d
  | .loop condition body => condition.Obeys d ∧ body.Obeys d
  | .jump _ => d.jump

def Stmt.AllObey (d : Discipline) : List Stmt → Prop
  | [] => True
  | s :: ss => s.Obeys d ∧ AllObey d ss

end

theorem Stmt.allObey_iff {d : Discipline} {ss : List Stmt} :
    Stmt.AllObey d ss ↔ ∀ s ∈ ss, s.Obeys d := by
  induction ss with
  | nil => simp [Stmt.AllObey]
  | cons s ss ih => simp [Stmt.AllObey, ih]

-- The values that such trees can give: nothing undefined, and functions whose bodies are such
-- trees.
def Value.Obeys (d : Discipline) : Value → Prop
  | .undefined _ => False
  | .function f => Stmt.AllObey d f.body
  | _ => True

theorem Literal.obeys_value {d : Discipline} {literal : Literal} (h : d.literal literal) :
    literal.value.Obeys d := by
  cases literal with
  | undefined u => exact absurd h (d.defined u)
  | _ => trivial

-- Nothing that obeys is without a text.
theorem Value.Obeys.display {d : Discipline} {v : Value} (h : v.Obeys d) :
    ∃ text, v.display = .ok text := by
  cases v with
  | undefined u => exact absurd h not_false
  | bool b => cases b <;> exact ⟨_, rfl⟩
  | _ => exact ⟨_, rfl⟩

namespace Value

-- What an operator can answer besides that it is not defined.
def IsResult : Value → Prop
  | .nil | .bool _ | .number _ | .string _ | .undefined _ => True
  | _ => False

theorem isResult_equal (a b : Value) : (equal a b).IsResult := by
  cases a <;> cases b <;> trivial

theorem isResult_notEqual (a b : Value) : (notEqual a b).IsResult := by
  unfold notEqual
  split <;> trivial

theorem isResult_add (a b : Value) : (add a b).IsResult := by
  cases a <;> cases b <;> trivial

theorem isResult_arithmetic (operation : Float → Float → Float) (a b : Value) :
    (arithmetic operation a b).IsResult := by
  cases a <;> cases b <;> trivial

theorem isResult_ordering (holds : Float → Float → Bool) (a b : Value) :
    (ordering holds a b).IsResult := by
  cases a <;> cases b <;> trivial

theorem isResult_binary {kind : TokenKind} {operation : Value → Value → Value}
    (h : binary? kind = some operation) (a b : Value) : (operation a b).IsResult := by
  unfold binary? at h
  split at h
  any_goals obtain rfl := Option.some.inj h
  · exact isResult_arithmetic _ a b
  · exact isResult_arithmetic _ a b
  · exact isResult_arithmetic _ a b
  · exact isResult_add a b
  · exact isResult_ordering _ a b
  · exact isResult_ordering _ a b
  · exact isResult_ordering _ a b
  · exact isResult_ordering _ a b
  · exact isResult_notEqual a b
  · exact isResult_equal a b
  · cases h

theorem isResult_unary {kind : TokenKind} {operation : Value → Value}
    (h : unary? kind = some operation) (a : Value) : (operation a).IsResult := by
  unfold unary? at h
  split at h
  · obtain rfl := Option.some.inj h
    cases a <;> trivial
  · obtain rfl := Option.some.inj h
    trivial
  · cases h

theorem obeys_unary {d : Discipline} {kind : TokenKind} {operation : Value → Value}
    (h : unary? kind = some operation) (a : Value) : (operation a).Obeys d := by
  unfold unary? at h
  split at h
  · obtain rfl := Option.some.inj h
    cases a <;> trivial
  · obtain rfl := Option.some.inj h
    trivial
  · cases h

end Value

end Lox
