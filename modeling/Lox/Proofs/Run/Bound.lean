import Lox.Proofs.Run.Traced

namespace Lox

-- A value is bound to a name in a scope.
def Heap.Binds (heap : Heap) (id : ScopeId) (name : String) (value : Value) : Prop :=
  ∃ scope, heap[id]? = some scope ∧ scope.find? name = some value

-- A heap in which nothing is bound but what was bound before, or is among certain bindings.
def Heap.Adds (bound : ScopeId → String → Value → Prop) (before after : Heap) : Prop :=
  ∀ id name value, after.Binds id name value → before.Binds id name value ∨ bound id name value

namespace Heap

variable {bound : ScopeId → String → Value → Prop} {g h k : Heap}

theorem Adds.refl (h : Heap) : h.Adds bound h :=
  fun _ _ _ hb => .inl hb

theorem Adds.trans (hg : g.Adds bound h) (hh : h.Adds bound k) : g.Adds bound k :=
  fun id name value hb => (hh id name value hb).elim (hg id name value) .inr

theorem Adds.mono {bound' : ScopeId → String → Value → Prop} (hg : g.Adds bound h)
    (hb : ∀ id name value, bound id name value → bound' id name value) : g.Adds bound' h :=
  fun id name value h => (hg id name value h).imp_right (hb id name value)

theorem adds_create (h : Heap) (enclosing : Option ScopeId) :
    h.Adds bound (h.create enclosing) := by
  rintro id name value ⟨scope, hscope, hv⟩
  rw [getElem?_create] at hscope
  split at hscope
  · obtain rfl := Option.some.inj hscope
    simp [Scope.find?, Bindings.find?] at hv
  · exact .inl ⟨scope, hscope, hv⟩

theorem adds_define (h : Heap) {id : ScopeId} {name : String} {value : Value}
    (hb : bound id name value) : h.Adds bound (h.define id name value) := by
  rintro other key found ⟨scope, hscope, hv⟩
  rw [getElem?_define] at hscope
  split at hscope
  · next heq =>
    obtain ⟨old, hold, rfl⟩ := Option.map_eq_some_iff.1 hscope
    rw [Scope.find?, Scope.define, Bindings.find?_put] at hv
    split at hv
    · next hkey => exact .inr (Option.some.inj hv ▸ hkey ▸ heq ▸ hb)
    · exact .inl ⟨old, hold, hv⟩
  · exact .inl ⟨scope, hscope, hv⟩

end Heap

namespace Run

-- What is bound at some moment of a run.
def Moment.Bound (m : Moment) (id : ScopeId) (name : String) (value : Value) : Prop :=
  ∃ m' t, m.Leads m' ∧ m'.Binds t id name value

theorem Moment.Binds.now {m : Moment} {t : State} {id : ScopeId} {name : String} {value : Value}
    (h : m.Binds t id name value) : m.Bound id name value :=
  ⟨m, t, .refl, h⟩

-- Code that binds nothing from a state but certain bindings.
def Adding {α : Type} (bound : ScopeId → String → Value → Prop) (m : Eval α) (s : State) : Prop :=
  s.heap.Adds bound (m s).2.heap

theorem traced_adds : Traced fun m before after => before.Adds m.Bound after where
  refl _ heap := .refl heap
  trans hg hh := hg.trans hh
  enters hm h := h.mono fun _ _ _ ⟨m, t, hleads, hb⟩ => ⟨m, t, .head hm hleads, hb⟩
  binds heap h := heap.adds_define h.now
  block _ _ s := s.heap.adds_create (some s.current)
  call _ f _ s := s.heap.adds_create (some f.scope)

section

variable {fuel : Nat}

theorem adding_evalWith
    (hi : ∀ f vs s, Adding (Moment.Bound ⟨fuel, .call f vs, s⟩) (invoke fuel f vs) s)
    (e : Expr) (s : State) :
    Adding (Moment.Bound ⟨fuel, .expression e, s⟩) (evalWith (invoke fuel) e) s :=
  traced_adds.evalWith hi e s

theorem adding_execWith
    (hi : ∀ f vs s, Adding (Moment.Bound ⟨fuel, .call f vs, s⟩) (invoke fuel f vs) s)
    (st : Stmt) (s : State) :
    Adding (Moment.Bound ⟨fuel, .statement st, s⟩) (execWith (invoke fuel) fuel st) s :=
  traced_adds.execWith hi st s

end

theorem adding_invoke (fuel : Nat) (f : Function) (vs : List Value) (s : State) :
    Adding (Moment.Bound ⟨fuel, .call f vs, s⟩) (invoke fuel f vs) s :=
  traced_adds.invoke fuel f vs s

end Run

end Lox
