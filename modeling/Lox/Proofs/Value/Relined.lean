import Lox.Proofs.Run.Discipline
import Lox.Proofs.Syntax.Relined

namespace Lox

-- Functions keep the trees that they were declared by, and so the lines of the tokens in them.
def Function.relined (f : Token → Int) (fn : Function) : Function where
  identity := fn.identity
  name := fn.name.relined f
  parameters := fn.parameters.map (·.relined f)
  body := Stmt.allRelined f fn.body
  scope := fn.scope

def Value.relined (f : Token → Int) : Value → Value
  | .function fn => .function (fn.relined f)
  | v => v

namespace Value

variable (f : Token → Int)

@[simp] theorem relined_relined (g : Token → Int) (v : Value) :
    (v.relined f).relined g = v.relined (thenLine f g) := by
  cases v with
  | function fn =>
    have hmap : (·.relined g) ∘ (·.relined f) = (Token.relined (thenLine f g) ·) := rfl
    simp [relined, Function.relined, hmap]
  | _ => rfl

@[simp] theorem relined_line (v : Value) : v.relined Token.line = v := by
  cases v with
  | function fn => simp [relined, Function.relined]
  | _ => rfl

-- Nothing that a program can see of a value depends on lines.
@[simp] theorem isTruthy_relined (v : Value) : (v.relined f).isTruthy = v.isTruthy := by
  cases v <;> rfl

@[simp] theorem kindName_relined (v : Value) : (v.relined f).kindName = v.kindName := by
  cases v <;> rfl

@[simp] theorem display_relined (v : Value) : (v.relined f).display = v.display := by
  cases v with
  | bool value => cases value <;> rfl
  | _ => rfl

theorem equal_relined (a b : Value) : equal (a.relined f) (b.relined f) = equal a b := by
  cases a <;> cases b <;> rfl

theorem add_relined (a b : Value) : add (a.relined f) (b.relined f) = add a b := by
  cases a <;> cases b <;> rfl

theorem arithmetic_relined (operation : Float → Float → Float) (a b : Value) :
    arithmetic operation (a.relined f) (b.relined f) = arithmetic operation a b := by
  cases a <;> cases b <;> rfl

theorem ordering_relined (holds : Float → Float → Bool) (a b : Value) :
    ordering holds (a.relined f) (b.relined f) = ordering holds a b := by
  cases a <;> cases b <;> rfl

theorem binary_relined {kind : TokenKind} {operation : Value → Value → Value}
    (h : binary? kind = some operation) (a b : Value) :
    operation (a.relined f) (b.relined f) = operation a b := by
  unfold binary? at h
  split at h
  any_goals obtain rfl := Option.some.inj h
  · exact arithmetic_relined f _ a b
  · exact arithmetic_relined f _ a b
  · exact arithmetic_relined f _ a b
  · exact add_relined f a b
  · exact ordering_relined f _ a b
  · exact ordering_relined f _ a b
  · exact ordering_relined f _ a b
  · exact ordering_relined f _ a b
  · rw [notEqual, notEqual, equal_relined]
  · exact equal_relined f a b
  · cases h

-- The result of an operator holds no tree.
theorem IsResult.relined {v : Value} (h : v.IsResult) : v.relined f = v := by
  cases v with
  | function fn => exact absurd h not_false
  | _ => rfl

theorem unary_relined {kind : TokenKind} {operation : Value → Value}
    (h : unary? kind = some operation) (a : Value) :
    operation (a.relined f) = (operation a).relined f := by
  unfold unary? at h
  split at h
  · obtain rfl := Option.some.inj h
    cases a <;> rfl
  · obtain rfl := Option.some.inj h
    dsimp only
    rw [isTruthy_relined]
    rfl
  · cases h

end Value

theorem Literal.relined_value (f : Token → Int) (literal : Literal) :
    literal.value.relined f = literal.value := by
  cases literal <;> rfl

def Bindings.relined (f : Token → Int) (bindings : Bindings) : Bindings :=
  bindings.map fun (name, value) => (name, value.relined f)

def Scope.relined (f : Token → Int) (scope : Scope) : Scope where
  enclosing := scope.enclosing
  bindings := scope.bindings.relined f

def Heap.relined (f : Token → Int) (heap : Heap) : Heap :=
  heap.map (·.relined f)

namespace Bindings

variable (f : Token → Int)

@[simp] theorem relined_relined (g : Token → Int) (bindings : Bindings) :
    (bindings.relined f).relined g = bindings.relined (thenLine f g) := by
  simp [relined, Function.comp_def]

@[simp] theorem relined_line (bindings : Bindings) : bindings.relined Token.line = bindings := by
  simp [relined]

theorem find?_relined (name : String) (bindings : Bindings) :
    (bindings.relined f).find? name = (bindings.find? name).map (·.relined f) := by
  induction bindings with
  | nil => rfl
  | cons binding rest ih =>
    obtain ⟨key, value⟩ := binding
    simp only [relined] at ih
    simp only [relined, List.map_cons, find?, ih]
    split <;> rfl

theorem put_relined (name : String) (value : Value) (bindings : Bindings) :
    (bindings.put name value).relined f = (bindings.relined f).put name (value.relined f) := by
  induction bindings with
  | nil => rfl
  | cons binding rest ih =>
    obtain ⟨key, old⟩ := binding
    simp only [relined] at ih
    simp only [relined, List.map_cons, put, ← ih]
    split <;> rfl

end Bindings

theorem Scope.find?_relined (f : Token → Int) (scope : Scope) (name : String) :
    (scope.relined f).find? name = (scope.find? name).map (·.relined f) :=
  Bindings.find?_relined f name scope.bindings

theorem Scope.define_relined (f : Token → Int) (scope : Scope) (name : String) (value : Value) :
    (scope.define name value).relined f = (scope.relined f).define name (value.relined f) :=
  congrArg (Scope.mk scope.enclosing) (Bindings.put_relined f name value scope.bindings)

namespace Heap

variable (f : Token → Int)

@[simp] theorem relined_relined (g : Token → Int) (heap : Heap) :
    (heap.relined f).relined g = heap.relined (thenLine f g) := by
  simp [relined, Scope.relined, Function.comp_def]

@[simp] theorem relined_line (heap : Heap) : heap.relined Token.line = heap := by
  have hscope : (Scope.relined Token.line ·) = id := by
    funext scope
    exact congrArg (Scope.mk scope.enclosing) (Bindings.relined_line scope.bindings)
  rw [relined, hscope]
  exact Array.map_id heap

@[simp] theorem size_relined (heap : Heap) : (heap.relined f).size = heap.size :=
  Array.size_map

theorem getElem?_relined (heap : Heap) (id : ScopeId) :
    (heap.relined f)[id]? = heap[id]?.map (·.relined f) :=
  Array.getElem?_map

theorem create_relined (heap : Heap) (enclosing : Option ScopeId) :
    (heap.create enclosing).relined f = (heap.relined f).create enclosing :=
  Array.map_push

theorem define_relined (heap : Heap) (id : ScopeId) (name : String) (value : Value) :
    (heap.define id name value).relined f =
      (heap.relined f).define id name (value.relined f) := by
  apply Array.ext_getElem?
  intro i
  simp only [define, getElem?_relined, Array.getElem?_modify]
  by_cases hi : id = i
  · cases heap[i]? <;> simp [hi, Scope.define_relined]
  · simp [hi]

-- Names are looked up by their texts, so that they are found in the same scopes.
theorem owner?_relined (heap : Heap) (name : String) (id : ScopeId) :
    (heap.relined f).owner? name id = heap.owner? name id := by
  induction id using Nat.strongRecOn with
  | ind id ih =>
    rw [owner?, owner?, getElem?_relined]
    cases heap[id]? with
    | none => rfl
    | some scope =>
      simp only [Option.map_some, Scope.find?_relined, Option.isSome_map]
      split
      · rfl
      · cases he : scope.enclosing with
        | none => simp [Scope.relined, he]
        | some outer =>
          simp only [Scope.relined, he]
          split
          · next hlt => exact ih outer hlt
          · rfl

theorem get?_relined (heap : Heap) (id : ScopeId) (name : String) :
    (heap.relined f).get? id name = (heap.get? id name).map (·.relined f) := by
  simp only [get?, owner?_relined, Option.bind_eq_bind]
  cases heap.owner? name id with
  | none => rfl
  | some owner =>
    simp only [Option.bind_some, getElem?_relined]
    cases heap[owner]? with
    | none => rfl
    | some scope => exact Scope.find?_relined f scope name

end Heap

end Lox
