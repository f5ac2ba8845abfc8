import Lox.Proofs.Run.Discipline
import Lox.Proofs.Syntax.MadeOf
import Lox.Value.Operator

namespace Lox

-- The literals that program text gives.
def Literal.Textual : Literal → Prop
  | .nil | .bool _ | .number _ | .string _ => True
  | _ => False

-- A token of a program text, if only its literal counts.
def Token.Textual (t : Token) : Prop :=
  t.kind ∈ [.number, .string] → t.literal.Textual

-- A token of a program text that has a property if errors can point at it, which they do at no
-- string.
structure Token.Fits (P : Token → Prop) (t : Token) : Prop where
  property : t.kind ≠ .string → P t
  textual : t.Textual

-- What trees hold that are read from tokens with a property.
def Discipline.textual (token : Token → Prop) : Discipline where
  token := token
  literal := Literal.Textual
  binary kind := ∃ operation, Value.binary? kind = some operation
  unary kind := ∃ operation, Value.unary? kind = some operation
  jump := False
  defined _ h := h

namespace Syntax

theorem textual_of_constant? {t : Token} {value : Literal} (hv : constant? t = some value)
    (ht : t.Textual) : value.Textual := by
  unfold constant? at hv
  split at hv
  any_goals obtain rfl := Option.some.inj hv
  · next hk => exact ht (by simp [hk])
  · next hk => exact ht (by simp [hk])
  · trivial
  · trivial
  · trivial
  · cases hv

end Syntax

variable {P : Token → Prop}

theorem Token.Of.points {kinds : List TokenKind} {t : Token} (h : t.Of (Token.Fits P) kinds)
    (hkinds : TokenKind.string ∉ kinds) : P t := by
  refine h.property.property fun hk => hkinds ?_
  rw [← hk]
  exact h.kind

theorem binary?_of_mem {kind : TokenKind} (h : kind ∈ binaryKinds) :
    ∃ operation, Value.binary? kind = some operation := by
  simp only [binaryKinds, List.mem_cons, List.not_mem_nil, or_false] at h
  obtain rfl | rfl | rfl | rfl | rfl | rfl | rfl | rfl | rfl | rfl := h <;> exact ⟨_, rfl⟩

theorem unary?_of_mem {kind : TokenKind} (h : kind ∈ [.bang, .minus]) :
    ∃ operation, Value.unary? kind = some operation := by
  simp only [List.mem_cons, List.not_mem_nil, or_false] at h
  obtain rfl | rfl := h <;> exact ⟨_, rfl⟩

theorem Literal.MadeOf.textual {value : Literal} (h : value.MadeOf (Token.Fits P)) :
    value.Textual := by
  obtain rfl | ⟨t, ht, hv⟩ := h
  · trivial
  · exact Syntax.textual_of_constant? hv ht.textual

mutual

-- Trees that are made of tokens of a text hold nothing but what such trees may.
theorem Expr.MadeOf.obeys {e : Expr} (h : e.MadeOf (Token.Fits P)) : e.Obeys (.textual P) := by
  cases e with
  | assign name value => exact ⟨h.1.points (by simp), Expr.MadeOf.obeys h.2⟩
  | binary left operator right =>
    exact ⟨h.1.points (by decide), binary?_of_mem h.1.kind, Expr.MadeOf.obeys h.2.1,
      Expr.MadeOf.obeys h.2.2⟩
  | call callee paren arguments =>
    exact ⟨h.1.points (by simp), Expr.MadeOf.obeys h.2.1, Expr.AllMadeOf.obey h.2.2⟩
  | grouping inner => exact Expr.MadeOf.obeys (e := inner) h
  | literal value => exact Literal.MadeOf.textual h
  | logical left operator right => exact ⟨Expr.MadeOf.obeys h.2.1, Expr.MadeOf.obeys h.2.2⟩
  | unary operator operand => exact ⟨unary?_of_mem h.1.kind, Expr.MadeOf.obeys h.2⟩
  | «variable» name => exact Token.Of.points h (by simp)

theorem Expr.AllMadeOf.obey {es : List Expr} (h : Expr.AllMadeOf (Token.Fits P) es) :
    Expr.AllObey (.textual P) es := by
  cases es with
  | nil => trivial
  | cons e es => exact ⟨Expr.MadeOf.obeys h.1, Expr.AllMadeOf.obey h.2⟩

end

mutual

theorem Stmt.MadeOf.obeys {s : Stmt} (h : s.MadeOf (Token.Fits P)) : s.Obeys (.textual P) := by
  cases s with
  | block body =>
    have hbody : Stmt.AllMadeOf (Token.Fits P) body := h
    exact Stmt.AllMadeOf.obey hbody
  | breakLoop keyword => exact Token.Of.points h (by simp)
  | expression value => exact Expr.MadeOf.obeys (e := value) h
  | function name parameters body => exact Stmt.AllMadeOf.obey h.2.2
  | branch condition yes no =>
    cases no with
    | none => exact ⟨h.1.obeys, Stmt.MadeOf.obeys h.2⟩
    | some no => exact ⟨h.1.obeys, Stmt.MadeOf.obeys h.2.1, Stmt.MadeOf.obeys h.2.2⟩
  | print value => exact Expr.MadeOf.obeys (e := value) h
  | returnFrom keyword value =>
    cases value with
    | none => exact Token.Of.points h (by simp)
    | some value => exact ⟨h.1.points (by simp), h.2.obeys⟩
  | declare name initializer =>
    cases initializer with
    | none => trivial
    | some initializer => exact h.2.obeys
  | loop condition body => exact ⟨h.1.obeys, Stmt.MadeOf.obeys h.2⟩
  | jump kind => exact h

theorem Stmt.AllMadeOf.obey {ss : List Stmt} (h : Stmt.AllMadeOf (Token.Fits P) ss) :
    Stmt.AllObey (.textual P) ss := by
  cases ss with
  | nil => trivial
  | cons s ss => exact ⟨Stmt.MadeOf.obeys h.1, Stmt.AllMadeOf.obey h.2⟩

end

end Lox
