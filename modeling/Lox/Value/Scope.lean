import Lox.Value.Basic

namespace Lox

-- Names and the values that they are bound to, in the order in which they were first bound.
abbrev Bindings := List (String × Value)

namespace Bindings

def find? (name : String) : Bindings → Option Value
  | [] => none
  | (other, value) :: rest => if other = name then some value else find? name rest

-- Binds a name, in place of what it was bound to before.
def put (name : String) (value : Value) : Bindings → Bindings
  | [] => [(name, value)]
  | (other, old) :: rest =>
    if other = name then (name, value) :: rest else (other, old) :: put name value rest

-- What is put is found under its own name, and nothing changes under any other.
theorem find?_put (name other : String) (value : Value) (bindings : Bindings) :
    find? other (put name value bindings) =
      if other = name then some value else find? other bindings := by
  induction bindings with
  | nil => simp [put, find?, eq_comm]
  | cons binding rest ih =>
    obtain ⟨key, old⟩ := binding
    by_cases hk : key = name
    · subst hk
      by_cases ho : other = key
      · simp [put, find?, ho]
      · simp [put, find?, ho, Ne.symm ho]
    · by_cases ho : key = other
      · subst ho
        simp [put, find?, hk]
      · simp [put, find?, hk, ho, ih]

end Bindings

-- The names that one stretch of code binds, and the scope around it.
structure Scope where
  enclosing : Option ScopeId
  bindings : Bindings

def Scope.find? (scope : Scope) (name : String) : Option Value :=
  scope.bindings.find? name

def Scope.define (scope : Scope) (name : String) (value : Value) : Scope :=
  { scope with bindings := scope.bindings.put name value }

-- All scopes, in order of creation. Scopes are shared: a function keeps the name of the scope it
-- was declared in, not a copy of it. An enclosing scope is older than those it encloses.
abbrev Heap := Array Scope

namespace Heap

-- Adds an empty scope; its name is the size that the heap had before.
def create (heap : Heap) (enclosing : Option ScopeId) : Heap :=
  heap.push ⟨enclosing, []⟩

-- Binds a name in one scope, whatever the scopes around it bind.
def define (heap : Heap) (id : ScopeId) (name : String) (value : Value) : Heap :=
  heap.modify id (·.define name value)

-- The nearest scope, from the given one outwards, that binds a name.
def owner? (heap : Heap) (name : String) (id : ScopeId) : Option ScopeId :=
  match heap[id]? with
  | none => none
  | some scope =>
    if (scope.find? name).isSome then
      some id
    else
      match scope.enclosing with
      | none => none
      | some outer => if outer < id then owner? heap name outer else none
termination_by id

-- The value of a name as seen from a scope.
def get? (heap : Heap) (id : ScopeId) (name : String) : Option Value := do
  let owner ← heap.owner? name id
  let scope ← heap[owner]?
  scope.find? name

-- Binds a name anew where the nearest scope binds it; a name that is bound nowhere stays so.
def assign? (heap : Heap) (id : ScopeId) (name : String) (value : Value) : Option Heap :=
  match heap.owner? name id with
  | none => none
  | some owner => some (heap.define owner name value)

end Heap

end Lox
