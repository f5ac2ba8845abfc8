import Lox.Proofs.Value.Heap

namespace Lox

-- How the names of a scope may change: it stays where it is and loses none, and it may come to bind
-- more of them only under a condition.
structure Scope.Gains (more : Prop) (scope later : Scope) : Prop where
  enclosing : later.enclosing = scope.enclosing
  kept : ∀ name, (scope.find? name).isSome → (later.find? name).isSome
  gained : ∀ name, (later.find? name).isSome → (scope.find? name).isSome ∨ more

theorem Scope.find?_define (scope : Scope) (name other : String) (value : Value) :
    (scope.define name value).find? other =
      if other = name then some value else scope.find? other :=
  Bindings.find?_put name other value scope.bindings

namespace Scope.Gains

variable {more : Prop} {scope later : Scope}

theorem refl (scope : Scope) : scope.Gains more scope :=
  ⟨rfl, fun _ h => h, fun _ h => .inl h⟩

theorem trans {latest : Scope} (h : scope.Gains more later) (h' : later.Gains more latest) :
    scope.Gains more latest where
  enclosing := h'.enclosing.trans h.enclosing
  kept name hname := h'.kept name (h.kept name hname)
  gained name hname := (h'.gained name hname).elim (h.gained name) .inr

theorem mono {more' : Prop} (h : scope.Gains more later) (himp : more → more') :
    scope.Gains more' later :=
  ⟨h.enclosing, h.kept, fun name hname => (h.gained name hname).imp_right himp⟩

theorem define {name : String} (h : (scope.find? name).isSome ∨ more) (value : Value) :
    scope.Gains more (scope.define name value) where
  enclosing := rfl
  kept other hother := by
    rw [find?_define]
    split
    · rfl
    · exact hother
  gained other hother := by
    rw [find?_define] at hother
    split at hother
    · next heq => exact heq ▸ h
    · exact .inl hother

-- Without new names a scope binds what it bound before.
theorem isSome_eq (h : scope.Gains False later) (name : String) :
    (later.find? name).isSome = (scope.find? name).isSome :=
  Bool.eq_iff_iff.2 ⟨fun hname => (h.gained name hname).resolve_right not_false, h.kept name⟩

end Scope.Gains

namespace Heap

-- How the names in a heap may change: every scope stays where it is and loses none, and only the
-- scopes of a kind may come to bind more.
def Gains (may : ScopeId → Prop) (heap later : Heap) : Prop :=
  ∀ (id : Nat) (scope : Scope), heap[id]? = some scope →
    ∃ scope', later[id]? = some scope' ∧ scope.Gains (may id) scope'

-- The scope that is found for a name binds it.
theorem isSome_of_owner? {heap : Heap} {name : String} {id owner : ScopeId}
    (h : heap.owner? name id = some owner) :
    ∃ scope, heap[owner]? = some scope ∧ (scope.find? name).isSome := by
  induction id using Nat.strongRecOn with
  | ind id ih =>
    rw [owner?] at h
    cases hscope : heap[id]? with
    | none => simp [hscope] at h
    | some scope =>
      simp only [hscope] at h
      split at h
      · next hname =>
        obtain rfl := Option.some.inj h
        exact ⟨scope, hscope, hname⟩
      · cases hout : scope.enclosing with
        | none => simp [hout] at h
        | some outer =>
          simp only [hout] at h
          split at h
          · next hlt => exact ih outer hlt h
          · cases h

theorem isSome_get? (heap : Heap) (id : ScopeId) (name : String) :
    (heap.get? id name).isSome = (heap.owner? name id).isSome := by
  cases howner : heap.owner? name id with
  | none => simp [get?, howner]
  | some owner =>
    obtain ⟨scope, hscope, hname⟩ := isSome_of_owner? howner
    simp [get?, howner, hscope, hname]

namespace Gains

variable {may : ScopeId → Prop} {heap later : Heap}

theorem refl (heap : Heap) : heap.Gains may heap :=
  fun _ scope hscope => ⟨scope, hscope, .refl scope⟩

theorem trans {latest : Heap} (h : heap.Gains may later) (h' : later.Gains may latest) :
    heap.Gains may latest := by
  intro id scope hscope
  obtain ⟨scope', hscope', hgains⟩ := h id scope hscope
  obtain ⟨scope'', hscope'', hgains'⟩ := h' id scope' hscope'
  exact ⟨scope'', hscope'', hgains.trans hgains'⟩

-- Only the scopes that were there at the start count.
theorem restrict {may' : ScopeId → Prop} (h : heap.Gains may later)
    (himp : ∀ id < heap.size, may id → may' id) : heap.Gains may' later := by
  intro id scope hscope
  obtain ⟨scope', hscope', hgains⟩ := h id scope hscope
  have hlt : id < heap.size := (Array.getElem?_eq_some_iff.1 hscope).1
  exact ⟨scope', hscope', hgains.mono (himp id hlt)⟩

theorem create (heap : Heap) (enclosing : Option ScopeId) :
    heap.Gains may (heap.create enclosing) := by
  intro id scope hscope
  have hne : id ≠ heap.size := Nat.ne_of_lt (Array.getElem?_eq_some_iff.1 hscope).1
  refine ⟨scope, ?_, .refl scope⟩
  rw [Heap.create, Array.getElem?_push, if_neg hne]
  exact hscope

-- A name may be bound in a scope that is open for it, or anew where it is bound.
theorem define {id : ScopeId} {name : String}
    (h : ∀ scope, heap[id]? = some scope → (scope.find? name).isSome ∨ may id) (value : Value) :
    heap.Gains may (heap.define id name value) := by
  intro other scope hscope
  rw [Heap.define, Array.getElem?_modify]
  split
  · next heq =>
    subst heq
    rw [hscope]
    exact ⟨_, rfl, .define (h scope hscope) value⟩
  · exact ⟨scope, hscope, .refl scope⟩

theorem assign {name : String} {id owner : ScopeId} (h : heap.owner? name id = some owner)
    (value : Value) : heap.Gains may (heap.define owner name value) := by
  obtain ⟨scope, hscope, hname⟩ := isSome_of_owner? h
  refine define (fun scope' hscope' => .inl ?_) value
  obtain rfl := Option.some.inj (hscope.symm.trans hscope')
  exact hname

-- If no scope gains a name, every name that can be seen from an old scope was seen there before, in
-- the same scope, and the other way round.
theorem owner?_eq (h : heap.Gains (fun _ => False) later) (name : String) {id : ScopeId}
    (hid : id < heap.size) : later.owner? name id = heap.owner? name id := by
  induction id using Nat.strongRecOn with
  | ind id ih =>
    have hscope : heap[id]? = some heap[id] := Array.getElem?_eq_getElem hid
    obtain ⟨scope', hscope', hgains⟩ := h id heap[id] hscope
    rw [owner?, owner?, hscope, hscope']
    simp only [hgains.isSome_eq name, hgains.enclosing]
    split
    · rfl
    · cases heap[id].enclosing with
      | none => rfl
      | some outer =>
        dsimp only
        split
        · next hlt => exact ih outer hlt (Nat.lt_trans hlt hid)
        · rfl

theorem isSome_get?_eq (h : heap.Gains (fun _ => False) later) (name : String) {id : ScopeId}
    (hid : id < heap.size) : (later.get? id name).isSome = (heap.get? id name).isSome := by
  rw [isSome_get?, isSome_get?, h.owner?_eq name hid]

end Gains

end Heap

end Lox
