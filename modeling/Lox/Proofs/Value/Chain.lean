import Lox.Proofs.Value.Names
import Lox.Proofs.Value.Region

namespace Lox.Heap

-- The link of a scope to the one that encloses it, or to none if it is an outermost one.
def link? (heap : Heap) (id : ScopeId) : Option (Option ScopeId) :=
  heap[id]?.map (·.enclosing)

-- What a scope by itself binds a name to.
def bound? (heap : Heap) (name : String) (id : ScopeId) : Option Value :=
  heap[id]?.bind (·.find? name)

-- The scopes from one of them outwards, up to an outermost one. The links are followed as they are,
-- whatever the ages of the scopes: along links in a circle there are none.
inductive Chain (heap : Heap) : ScopeId → List ScopeId → Prop
  | outermost {id : ScopeId} (h : heap.link? id = some none) : Chain heap id [id]
  | inside {id outer : ScopeId} {path : List ScopeId} (h : heap.link? id = some (some outer))
      (hp : Chain heap outer path) : Chain heap id (id :: path)

-- A way from a scope to the outermost one, on which all names are found: the scope that is assigned
-- to is the first on it that binds the name, and so is the one in which the name is looked up.
structure Way (heap : Heap) (root id : ScopeId) (path : List ScopeId) : Prop where
  chain : heap.Chain id path
  root : path.getLast? = some root
  owner : ∀ name, heap.owner? name id = path.find? fun scope => (heap.bound? name scope).isSome
  value : ∀ name, heap.get? id name = path.findSome? (heap.bound? name)

-- A heap with one outermost scope. Every other is enclosed by one that was there before it.
structure Rooted (root : ScopeId) (heap : Heap) : Prop where
  outermost : heap.link? root = some none
  older : ∀ id link, heap.link? id = some link → id ≠ root → ∃ outer < id, link = some outer

section

variable {heap later : Heap} {root id : ScopeId} {path : List ScopeId} {may : ScopeId → Prop}

theorem lt_of_link? {link : Option ScopeId} (h : heap.link? id = some link) : id < heap.size := by
  obtain ⟨scope, hscope, -⟩ := Option.map_eq_some_iff.1 h
  exact (Array.getElem?_eq_some_iff.1 hscope).1

theorem link?_define (heap : Heap) (id : ScopeId) (name : String) (value : Value)
    (other : ScopeId) : (heap.define id name value).link? other = heap.link? other := by
  rw [link?, link?, getElem?_define]
  split
  · rw [Option.map_map]
    rfl
  · rfl

theorem link?_create (heap : Heap) (enclosing : Option ScopeId) (id : ScopeId) :
    (heap.create enclosing).link? id = if id = heap.size then some enclosing else heap.link? id := by
  rw [link?, getElem?_create]
  split <;> rfl

theorem Gains.link? (h : heap.Gains may later) {link : Option ScopeId}
    (hl : heap.link? id = some link) : later.link? id = some link := by
  obtain ⟨scope, hscope, rfl⟩ := Option.map_eq_some_iff.1 hl
  obtain ⟨scope', hscope', hgains⟩ := h id scope hscope
  rw [Heap.link?, hscope', Option.map_some, hgains.enclosing]

theorem Gains.bound? (h : heap.Gains may later) {name : String}
    (hb : (heap.bound? name id).isSome) : (later.bound? name id).isSome := by
  cases hs : heap[id]? with
  | none => simp [Heap.bound?, hs] at hb
  | some scope =>
    obtain ⟨scope', hs', hscope⟩ := h id scope hs
    simp only [Heap.bound?, hs, hs', Option.bind_some] at hb ⊢
    exact hscope.kept name hb

-- Scopes that stay where they are keep the way outwards.
theorem Chain.gains (h : heap.Chain id path) (hgains : heap.Gains may later) :
    later.Chain id path := by
  induction h with
  | outermost h => exact .outermost (hgains.link? h)
  | inside h _ ih => exact .inside (hgains.link? h) ih

theorem Gains.size_le (h : heap.Gains may later) : heap.size ≤ later.size := by
  refine Nat.not_lt.1 fun hlt => ?_
  obtain ⟨scope, hscope, -⟩ := h later.size heap[later.size] (Array.getElem?_eq_getElem hlt)
  exact Nat.lt_irrefl _ (Array.getElem?_eq_some_iff.1 hscope).1

theorem lt_of_isSome_get? {name : String} (h : (heap.get? id name).isSome) : id < heap.size := by
  refine Nat.not_le.1 fun hle => ?_
  rw [isSome_get?, owner?, Array.getElem?_eq_none hle] at h
  cases h

theorem bind_find? (path : List ScopeId) (f : ScopeId → Option Value) :
    (path.find? fun id => (f id).isSome).bind f = path.findSome? f := by
  induction path with
  | nil => rfl
  | cons id path ih =>
    rw [List.find?_cons, List.findSome?_cons]
    cases hf : f id with
    | none => exact ih
    | some value => exact hf

end

namespace Rooted

variable {heap later : Heap} {root id : ScopeId} {path : List ScopeId} {may : ScopeId → Prop}

-- The search for a name asks for an older scope at every link, and there is one at every link.
theorem owner?_eq (hr : heap.Rooted root) (h : heap.Chain id path) (name : String) :
    heap.owner? name id = path.find? fun scope => (heap.bound? name scope).isSome := by
  induction h with
  | outermost h =>
    obtain ⟨scope, hs, ho⟩ := Option.map_eq_some_iff.1 h
    rw [owner?, hs, List.find?_singleton, bound?, hs, Option.bind_some]
    dsimp only
    rw [ho]
  | @inside id outer path h _ ih =>
    have hne : id ≠ root := by
      rintro rfl
      exact Option.some_ne_none outer (Option.some.inj (h.symm.trans hr.outermost))
    obtain ⟨outer', hlt, heq⟩ := hr.older id _ h hne
    obtain rfl := Option.some.inj heq
    obtain ⟨scope, hs, ho⟩ := Option.map_eq_some_iff.1 h
    rw [owner?, hs, List.find?_cons, bound?, hs, Option.bind_some]
    dsimp only
    rw [ho, ← ih]
    cases (scope.find? name).isSome <;> simp [hlt]

theorem way (hr : heap.Rooted root) (h : heap.Chain id path) (hlast : path.getLast? = some root) :
    heap.Way root id path := by
  refine ⟨h, hlast, hr.owner?_eq h, fun name => ?_⟩
  rw [← bind_find?, ← hr.owner?_eq h name]
  rfl

-- Every link leads to an older scope, so there is a way from each.
theorem exists_way (hr : heap.Rooted root) (hid : id < heap.size) :
    ∃ path, heap.Way root id path := by
  induction id using Nat.strongRecOn with
  | ind id ih =>
    by_cases heq : id = root
    · subst heq
      exact ⟨[id], hr.way (.outermost hr.outermost) rfl⟩
    · have hlink : heap.link? id = some heap[id].enclosing := by
        rw [link?, Array.getElem?_eq_getElem hid]
        rfl
      obtain ⟨outer, hlt, ho⟩ := hr.older id _ hlink heq
      obtain ⟨path, hway⟩ := ih outer hlt (Nat.lt_trans hlt hid)
      refine ⟨id :: path, hr.way (.inside (ho ▸ hlink) hway.chain) ?_⟩
      rw [List.getLast?_cons, hway.root]
      rfl

theorem define (h : heap.Rooted root) (id : ScopeId) (name : String) (value : Value) :
    (heap.define id name value).Rooted root := by
  constructor
  · rw [link?_define]
    exact h.outermost
  · intro other link hlink
    rw [link?_define] at hlink
    exact h.older other link hlink

theorem create (h : heap.Rooted root) {outer : ScopeId} (ho : outer < heap.size) :
    (heap.create (some outer)).Rooted root := by
  constructor
  · rw [link?_create, if_neg (Nat.ne_of_lt (lt_of_link? h.outermost))]
    exact h.outermost
  · intro id link hlink hne
    rw [link?_create] at hlink
    split at hlink
    · next heq => exact ⟨outer, heq ▸ ho, (Option.some.inj hlink).symm⟩
    · exact h.older id link hlink hne

-- The way outwards stays the same, and so a name that is found stays found.
theorem isSome_get? (hr : heap.Rooted root) (hr' : later.Rooted root) (h : heap.Gains may later)
    {name : String} (hname : (heap.get? id name).isSome) : (later.get? id name).isSome := by
  obtain ⟨path, hway⟩ := hr.exists_way (lt_of_isSome_get? hname)
  have hlater := hr'.way (hway.chain.gains h) hway.root
  rw [hway.value, List.findSome?_isSome_iff] at hname
  obtain ⟨scope, hmem, hbound⟩ := hname
  rw [hlater.value, List.findSome?_isSome_iff]
  exact ⟨scope, hmem, h.bound? hbound⟩

end Rooted

end Lox.Heap
