import Lox.Proofs.Value.Chain

namespace Lox

namespace Heap

-- The heaps that come about by creating scopes inside existing ones, and by binding names and
-- assigning to them in existing ones.
inductive Forest : Heap → Prop
  | empty : Forest #[]
  | create {heap : Heap} (h : Forest heap) {enclosing : Option ScopeId}
      (he : ∀ outer ∈ enclosing, outer < heap.size) : Forest (heap.create enclosing)
  | define {heap : Heap} (h : Forest heap) {id : ScopeId} (hid : id < heap.size) (name : String)
      (value : Value) : Forest (heap.define id name value)
  | assign {heap later : Heap} (h : Forest heap) {id : ScopeId} {name : String} {value : Value}
      (ha : heap.assign? id name value = some later) : Forest later

-- A scope is on the way outwards from another, and no scope before it binds a name.
inductive Sees (heap : Heap) (name : String) : ScopeId → ScopeId → Prop
  | here (id : ScopeId) : Sees heap name id id
  | outwards {id outer owner : ScopeId} (hfree : heap.bound? name id = none)
      (hlink : heap.link? id = some (some outer)) (h : Sees heap name outer owner) :
      Sees heap name id owner

-- The nearest scope that binds a name, from one of them outwards.
def Nearest (heap : Heap) (name : String) (id owner : ScopeId) : Prop :=
  heap.Sees name id owner ∧ (heap.bound? name owner).isSome

-- Every scope is newer than the one around it.
def Older (heap : Heap) : Prop :=
  ∀ id outer, heap.link? id = some (some outer) → outer < id

section

variable {heap later : Heap} {id owner target : ScopeId} {name : String} {value : Value}

theorem assign?_eq_some :
    heap.assign? id name value = some later ↔
      ∃ owner, heap.owner? name id = some owner ∧ later = heap.define owner name value := by
  rw [assign?]
  cases heap.owner? name id <;> simp [eq_comm]

theorem get?_eq (heap : Heap) (id : ScopeId) (name : String) :
    heap.get? id name = (heap.owner? name id).bind (heap.bound? name) :=
  rfl

theorem lt_of_isSome_bound? (h : (heap.bound? name id).isSome) : id < heap.size := by
  refine Nat.not_le.1 fun hle => ?_
  rw [bound?, Array.getElem?_eq_none hle] at h
  cases h

theorem bound?_define (hid : id < heap.size) (other : String) (scope : ScopeId) :
    (heap.define id name value).bound? other scope =
      if id = scope ∧ other = name then some value else heap.bound? other scope := by
  rw [bound?, bound?, getElem?_define]
  by_cases heq : id = scope
  · subst heq
    rw [if_pos rfl, Array.getElem?_eq_getElem hid, Option.map_some, Option.bind_some,
      Option.bind_some, Scope.find?_define]
    simp
  · simp [heq]

theorem Forest.older (h : heap.Forest) : heap.Older := by
  induction h with
  | empty =>
    intro id outer hlink
    simp [link?] at hlink
  | create _ he ih =>
    intro id outer hlink
    rw [link?_create] at hlink
    split at hlink
    · next heq => exact heq ▸ he outer (Option.some.inj hlink)
    · exact ih id outer hlink
  | define _ _ name value ih =>
    intro id outer hlink
    rw [link?_define] at hlink
    exact ih id outer hlink
  | assign _ ha ih =>
    intro id outer hlink
    obtain ⟨owner, -, rfl⟩ := assign?_eq_some.1 ha
    rw [link?_define] at hlink
    exact ih id outer hlink

-- One step of the search for a name.
theorem Older.owner?_eq (h : heap.Older) (name : String) (id : ScopeId) :
    heap.owner? name id =
      if (heap.bound? name id).isSome then some id
      else (heap.link? id).bind fun link => link.bind (heap.owner? name) := by
  rw [owner?, bound?, link?]
  cases hscope : heap[id]? with
  | none => rfl
  | some scope =>
    dsimp only [Option.bind_some, Option.map_some]
    split
    · rfl
    · cases houter : scope.enclosing with
      | none => rfl
      | some outer =>
        have hlink : heap.link? id = some (some outer) := by rw [link?, hscope, ← houter]; rfl
        exact if_pos (h id outer hlink)

-- The search stops at the nearest scope that binds the name.
theorem Older.owner?_eq_some_iff (h : heap.Older) :
    heap.owner? name id = some owner ↔ heap.Nearest name id owner := by
  constructor
  · intro ho
    induction id using Nat.strongRecOn with
    | ind id ih =>
      rw [h.owner?_eq] at ho
      split at ho
      · next hbound =>
        obtain rfl := Option.some.inj ho
        exact ⟨.here id, hbound⟩
      · next hfree =>
        obtain ⟨link, hlink, hrest⟩ := Option.bind_eq_some_iff.1 ho
        obtain ⟨outer, rfl, hfound⟩ := Option.bind_eq_some_iff.1 hrest
        obtain ⟨hsees, hbound⟩ := ih outer (h id outer hlink) hfound
        exact ⟨.outwards (Option.not_isSome_iff_eq_none.1 hfree) hlink hsees, hbound⟩
  · rintro ⟨hsees, hbound⟩
    induction hsees with
    | here id => rw [h.owner?_eq, if_pos hbound]
    | outwards hfree hlink _ ih =>
      rw [h.owner?_eq, hfree, hlink, if_neg (by simp)]
      exact ih hbound

theorem older_define (h : heap.Older) (id : ScopeId) (name : String) (value : Value) :
    (heap.define id name value).Older := by
  intro other outer hlink
  rw [link?_define] at hlink
  exact h other outer hlink

-- Binding the name in a scope that is seen hides it from none that saw it.
theorem Sees.define (hsees : heap.Sees name id target) (ht : target < heap.size) :
    (heap.define target name value).Sees name id target := by
  induction hsees with
  | here id => exact .here id
  | @outwards id outer target hfree hlink _ ih =>
    by_cases heq : target = id
    · exact heq ▸ .here target
    · refine .outwards ?_ (by rw [link?_define, hlink]) (ih ht)
      rw [bound?_define ht, if_neg fun hand => heq hand.1, hfree]

-- From where the scope is seen, a name that was bound in it is found there.
theorem Sees.get?_define (hsees : heap.Sees name id target) (h : heap.Older)
    (ht : target < heap.size) : (heap.define target name value).get? id name = some value := by
  have hbound : (heap.define target name value).bound? name target = some value := by
    rw [bound?_define ht, if_pos ⟨rfl, rfl⟩]
  have hnearest : (heap.define target name value).Nearest name id target :=
    ⟨hsees.define ht, by rw [hbound, Option.isSome_some]⟩
  rw [get?_eq, (older_define h target name value).owner?_eq_some_iff.2 hnearest, Option.bind_some,
    hbound]

-- From anywhere else, and under any other name, the same is found as before.
theorem get?_define_of_not (h : heap.Older) (ht : target < heap.size) {other : String}
    (hnot : ¬ (other = name ∧ heap.Sees name id target)) :
    (heap.define target name value).get? id other = heap.get? id other := by
  have hlater := older_define h target name value
  induction id using Nat.strongRecOn with
  | ind id ih =>
    have hsame : (heap.define target name value).bound? other id = heap.bound? other id := by
      rw [bound?_define ht, if_neg]
      rintro ⟨rfl, rfl⟩
      exact hnot ⟨rfl, .here target⟩
    rw [get?_eq, get?_eq, hlater.owner?_eq, h.owner?_eq, hsame, link?_define]
    split
    · rw [Option.bind_some, Option.bind_some, hsame]
    · next hfree =>
      cases hlink : heap.link? id with
      | none => rfl
      | some link =>
        cases link with
        | none => rfl
        | some outer =>
          refine ih outer (h id outer hlink) fun ⟨heq, hsees⟩ => hnot ⟨heq, ?_⟩
          rw [heq, Option.not_isSome_iff_eq_none] at hfree
          exact .outwards hfree hlink hsees

end

end Heap

end Lox
