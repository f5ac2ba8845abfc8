import Lox.Value.Operator

namespace Lox.Value

-- Values that no operator can tell apart, given which identities of functions stand for each other.
inductive Twins (same : Nat → Nat → Prop) : Value → Value → Prop
  | plain {v : Value} (h : ∀ f, v ≠ .function f) : Twins same v v
  | function {f g : Function} (hname : f.name = g.name) (hi : same f.identity g.identity) :
    Twins same (.function f) (.function g)

namespace Twins

variable {same : Nat → Nat → Prop} {a a' b b' : Value}

theorem isTruthy (h : Twins same a a') : a'.isTruthy = a.isTruthy := by
  cases h <;> rfl

theorem kindName (h : Twins same a a') : a'.kindName = a.kindName := by
  cases h <;> rfl

theorem display (h : Twins same a a') : a'.display = a.display := by
  cases h with
  | plain => rfl
  | function hname => simp only [Value.display, hname]

theorem add (ha : Twins same a a') (hb : Twins same b b') : add a' b' = add a b := by
  cases ha <;> cases hb <;> first | rfl | (cases a <;> rfl)

theorem arithmetic (operation : Float → Float → Float) (ha : Twins same a a')
    (hb : Twins same b b') : arithmetic operation a' b' = arithmetic operation a b := by
  cases ha <;> cases hb <;> first | rfl | (cases a <;> rfl)

theorem ordering (holds : Float → Float → Bool) (ha : Twins same a a')
    (hb : Twins same b b') : ordering holds a' b' = ordering holds a b := by
  cases ha <;> cases hb <;> first | rfl | (cases a <;> rfl)

theorem unary {kind : TokenKind} {operation : Value → Value} (h : unary? kind = some operation)
    (ha : Twins same a a') : operation a' = operation a := by
  unfold unary? at h
  split at h
  · obtain rfl := Option.some.inj h
    cases ha <;> rfl
  · obtain rfl := Option.some.inj h
    simp only [ha.isTruthy]
  · cases h

-- Functions are compared by identity, so it matters that identities that stand for each other are
-- equal to others on one side just when they are on the other.
section

variable (hsame : ∀ {i i' j j'}, same i j → same i' j' → (i = i' ↔ j = j'))
include hsame

theorem equal (ha : Twins same a a') (hb : Twins same b b') : equal a' b' = equal a b := by
  cases ha with
  | plain h =>
    cases hb with
    | plain _ => rfl
    | function _ _ => cases a <;> first | rfl | exact absurd rfl (h _)
  | function _ hi =>
    cases hb with
    | plain h => cases b <;> first | rfl | exact absurd rfl (h _)
    | function _ hj => simp only [Value.equal, hsame hi hj]

theorem binary {kind : TokenKind} {operation : Value → Value → Value}
    (h : binary? kind = some operation) (ha : Twins same a a') (hb : Twins same b b') :
    operation a' b' = operation a b := by
  unfold binary? at h
  split at h
  any_goals obtain rfl := Option.some.inj h
  · exact ha.arithmetic _ hb
  · exact ha.arithmetic _ hb
  · exact ha.arithmetic _ hb
  · exact ha.add hb
  · exact ha.ordering _ hb
  · exact ha.ordering _ hb
  · exact ha.ordering _ hb
  · exact ha.ordering _ hb
  · rw [notEqual, notEqual, ha.equal hsame hb]
  · exact ha.equal hsame hb
  · cases h

end

end Twins

end Lox.Value
