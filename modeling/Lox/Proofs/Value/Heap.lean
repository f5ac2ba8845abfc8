import Lox.Value.Scope

namespace Lox

-- What is found was put there, or was there before.
theorem Bindings.mem_of_find? {name : String} {value : Value} {bindings : Bindings}
    (h : bindings.find? name = some value) : (name, value) ∈ bindings := by
  induction bindings with
  | nil => simp [find?] at h
  | cons binding rest ih =>
    obtain ⟨key, old⟩ := binding
    by_cases hk : key = name
    · rw [find?, if_pos hk] at h
      simp [hk, Option.some.inj h]
    · rw [find?, if_neg hk] at h
      exact List.mem_cons_of_mem _ (ih h)

theorem Bindings.mem_put {name : String} {value : Value} {bindings : Bindings}
    {b : String × Value} (h : b ∈ bindings.put name value) : b = (name, value) ∨ b ∈ bindings := by
  induction bindings with
  | nil => simpa [put] using h
  | cons binding rest ih =>
    obtain ⟨key, old⟩ := binding
    by_cases hk : key = name
    · rw [put, if_pos hk] at h
      obtain rfl | hrest := List.mem_cons.1 h
      · exact .inl rfl
      · exact .inr (List.mem_cons_of_mem _ hrest)
    · rw [put, if_neg hk] at h
      obtain rfl | hrest := List.mem_cons.1 h
      · simp
      · exact (ih hrest).imp id (List.mem_cons_of_mem _)

namespace Heap

-- Every value that any scope binds has a property.
def All (P : Value → Prop) (heap : Heap) : Prop :=
  ∀ (id : Nat) (scope : Scope), heap[id]? = some scope → ∀ b ∈ scope.bindings, P b.2

variable {P : Value → Prop} {heap : Heap}

theorem All.create (h : heap.All P) (enclosing : Option ScopeId) :
    (heap.create enclosing).All P := by
  intro id scope hscope
  rw [Heap.create, Array.getElem?_push] at hscope
  split at hscope
  · obtain rfl := Option.some.inj hscope
    simp
  · exact h id scope hscope

theorem All.define (h : heap.All P) (id : ScopeId) (name : String) {value : Value}
    (hv : P value) : (heap.define id name value).All P := by
  intro other scope hscope b hb
  rw [Heap.define, Array.getElem?_modify] at hscope
  split at hscope
  · obtain ⟨old, hold, rfl⟩ := Option.map_eq_some_iff.1 hscope
    obtain rfl | hb := Bindings.mem_put hb
    · exact hv
    · exact h other old hold b hb
  · exact h other scope hscope b hb

theorem All.get? (h : heap.All P) {id : ScopeId} {name : String} {value : Value}
    (hv : heap.get? id name = some value) : P value := by
  simp only [Heap.get?, Option.bind_eq_bind, Option.bind_eq_some_iff] at hv
  obtain ⟨owner, -, scope, hscope, hv⟩ := hv
  exact h owner scope hscope _ (Bindings.mem_of_find? hv)

end Heap

end Lox
