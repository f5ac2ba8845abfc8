import Lox.Value.Scope

namespace Lox

-- A part of all scopes, and a part of all functions by their identities.
structure Region where
  scopes : ScopeId → Prop
  identities : Nat → Prop

-- Some of the scopes, and all functions.
def Region.ofScopes (scopes : ScopeId → Prop) : Region :=
  ⟨scopes, fun _ => True⟩

-- A function is in a region with the scope that it keeps. Other values refer to nothing.
def Value.In (r : Region) : Value → Prop
  | .function f => r.scopes f.scope ∧ r.identities f.identity
  | _ => True

structure Scope.In (r : Region) (scope : Scope) : Prop where
  enclosing : ∀ outer ∈ scope.enclosing, r.scopes outer
  values : ∀ name value, scope.find? name = some value → value.In r

theorem Value.In.mono {r r' : Region} (hs : ∀ id, r.scopes id → r'.scopes id)
    (hi : ∀ i, r.identities i → r'.identities i) {v : Value} (h : v.In r) : v.In r' := by
  cases v with
  | function f => exact ⟨hs _ h.1, hi _ h.2⟩
  | _ => trivial

theorem Scope.In.mono {r r' : Region} (hs : ∀ id, r.scopes id → r'.scopes id)
    (hi : ∀ i, r.identities i → r'.identities i) {scope : Scope} (h : scope.In r) : scope.In r' :=
  ⟨fun outer ho => hs _ (h.enclosing outer ho), fun name v hv => (h.values name v hv).mono hs hi⟩

theorem Scope.In.define {r : Region} {scope : Scope} (h : scope.In r) (name : String)
    {value : Value} (hv : value.In r) : (scope.define name value).In r := by
  refine ⟨h.enclosing, fun other found hfound => ?_⟩
  rw [Scope.find?, Scope.define, Bindings.find?_put] at hfound
  split at hfound
  · exact Option.some.inj hfound ▸ hv
  · exact h.values other found hfound

theorem Scope.empty_in {r : Region} {enclosing : Option ScopeId}
    (he : ∀ outer ∈ enclosing, r.scopes outer) : Scope.In r ⟨enclosing, []⟩ :=
  ⟨he, fun name value hv => by simp [Scope.find?, Bindings.find?] at hv⟩

theorem Literal.value_in (r : Region) (literal : Literal) : literal.value.In r := by
  cases literal <;> trivial

namespace Heap

variable {heap : Heap} {r : Region}

theorem getElem?_define (heap : Heap) (id : ScopeId) (name : String) (value : Value)
    (other : ScopeId) :
    (heap.define id name value)[other]? =
      if id = other then heap[other]?.map (·.define name value) else heap[other]? := by
  rw [define, Array.getElem?_modify]

@[simp] theorem size_define (heap : Heap) (id : ScopeId) (name : String) (value : Value) :
    (heap.define id name value).size = heap.size :=
  Array.size_modify

@[simp] theorem size_create (heap : Heap) (enclosing : Option ScopeId) :
    (heap.create enclosing).size = heap.size + 1 :=
  Array.size_push _

theorem getElem?_create (heap : Heap) (enclosing : Option ScopeId) (id : ScopeId) :
    (heap.create enclosing)[id]? = if id = heap.size then some ⟨enclosing, []⟩ else heap[id]? :=
  Array.getElem?_push

-- No scope of the region leads out of it.
def Closed (r : Region) (heap : Heap) : Prop :=
  ∀ id scope, r.scopes id → heap[id]? = some scope → scope.In r

theorem Closed.ofScopes (h : heap.Closed r) : heap.Closed (.ofScopes r.scopes) := by
  intro id scope hid hscope
  have hin := h id scope hid hscope
  exact ⟨hin.enclosing, fun name value hv => by
    cases value with
    | function f => exact ⟨(hin.values name _ hv).1, trivial⟩
    | _ => trivial⟩

theorem Closed.owner? (h : heap.Closed r) {name : String} {id owner : ScopeId} (hid : r.scopes id)
    (ho : heap.owner? name id = some owner) : r.scopes owner := by
  induction id using Nat.strongRecOn with
  | ind id ih =>
    rw [Heap.owner?] at ho
    split at ho
    · cases ho
    · next scope hscope =>
      split at ho
      · exact Option.some.inj ho ▸ hid
      · split at ho
        · cases ho
        · next outer houter =>
          split at ho
          · next hlt => exact ih outer hlt ((h id scope hid hscope).enclosing outer houter) ho
          · cases ho

theorem Closed.get? (h : heap.Closed r) {name : String} {id : ScopeId} {value : Value}
    (hid : r.scopes id) (hv : heap.get? id name = some value) : value.In r := by
  simp only [Heap.get?, Option.bind_eq_bind, Option.bind_eq_some_iff] at hv
  obtain ⟨owner, ho, scope, hscope, hv⟩ := hv
  exact (h owner scope (h.owner? hid ho) hscope).values name value hv

theorem Closed.define (h : heap.Closed r) (id : ScopeId) (name : String) {value : Value}
    (hv : value.In r) : (heap.define id name value).Closed r := by
  intro other scope hother hscope
  rw [getElem?_define] at hscope
  split at hscope
  · obtain ⟨old, hold, rfl⟩ := Option.map_eq_some_iff.1 hscope
    exact (h other old hother hold).define name hv
  · exact h other scope hother hscope

theorem Closed.create (h : heap.Closed r) {enclosing : Option ScopeId}
    (he : ∀ outer ∈ enclosing, r.scopes outer) : (heap.create enclosing).Closed r := by
  intro id scope hid hscope
  rw [getElem?_create] at hscope
  split at hscope
  · exact Option.some.inj hscope ▸ Scope.empty_in he
  · exact h id scope hid hscope

-- The scopes that some scopes lead to, over the scopes around them and over those that are kept by
-- functions bound in them.
inductive Reaches (heap : Heap) (roots : ScopeId → Prop) : ScopeId → Prop
  | root {id : ScopeId} (h : roots id) : Reaches heap roots id
  | outwards {id outer : ScopeId} {scope : Scope} (h : Reaches heap roots id)
      (hs : heap[id]? = some scope) (ho : scope.enclosing = some outer) : Reaches heap roots outer
  | captured {id : ScopeId} {scope : Scope} {name : String} {f : Function}
      (h : Reaches heap roots id) (hs : heap[id]? = some scope)
      (hf : scope.find? name = some (.function f)) : Reaches heap roots f.scope

theorem closed_reaches (heap : Heap) (roots : ScopeId → Prop) :
    heap.Closed (.ofScopes (heap.Reaches roots)) := by
  intro id scope hid hscope
  refine ⟨fun outer ho => .outwards hid hscope ho, fun name value hv => ?_⟩
  cases value with
  | function f => exact ⟨.captured hid hscope hv, trivial⟩
  | _ => trivial

theorem Reaches.mono {roots roots' : ScopeId → Prop} (h : ∀ id, roots id → roots' id)
    {id : ScopeId} (hid : heap.Reaches roots id) : heap.Reaches roots' id := by
  induction hid with
  | root hr => exact .root (h _ hr)
  | outwards _ hs ho ih => exact .outwards ih hs ho
  | captured _ hs hf ih => exact .captured ih hs hf

-- Nothing leads out of a region that is closed.
theorem Closed.of_reaches (h : heap.Closed r) {roots : ScopeId → Prop}
    (hroots : ∀ id, roots id → r.scopes id) {id : ScopeId} (hid : heap.Reaches roots id) :
    r.scopes id := by
  induction hid with
  | root hr => exact hroots _ hr
  | outwards _ hs ho ih => exact (h _ _ ih hs).enclosing _ ho
  | captured _ hs hf ih => exact ((h _ _ ih hs).values _ _ hf).1

end Heap

end Lox
