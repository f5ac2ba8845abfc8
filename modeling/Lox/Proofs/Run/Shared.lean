import Lox.Proofs.Run.Running
import Lox.Proofs.Value.Forest

namespace Lox.Run

open Eval

-- A state as code sees it that runs in the given scope.
def State.at (s : State) (id : ScopeId) : State :=
  { s with current := id }

-- From some scopes a name leads to a new value. From any other scope, and under any other name, the
-- same is found as before, or the same error.
def Rebinds (s t : State) (name : String) (value : Value) (affected : ScopeId → Prop) : Prop :=
  ∀ (id : ScopeId) (other : Token),
    (other.lexeme = name ∧ affected id → (lookup other (t.at id)).1 = .ok value) ∧
      (¬ (other.lexeme = name ∧ affected id) →
        (lookup other (t.at id)).1 = (lookup other (s.at id)).1)

section

variable {s t : State} {id : ScopeId}

theorem lookup_at (s : State) (id : ScopeId) (name : Token) :
    lookup name (s.at id) = (match s.heap.get? id name.lexeme with
      | some value => .ok value
      | none => .error (.error ⟨name, .undefinedVariable name.lexeme⟩), s.at id) := by
  rw [run_lookup, State.at]
  cases s.heap.get? id name.lexeme <;> rfl

-- A name without a scope that binds it is an error, and nothing happens.
theorem unbound_at {name : Token} (h : s.heap.owner? name.lexeme id = none) (value : Value) :
    lookup name (s.at id) =
        (.error (.error ⟨name, .undefinedVariable name.lexeme⟩), s.at id) ∧
      assign name value (s.at id) =
        (.error (.error ⟨name, .undefinedVariable name.lexeme⟩), s.at id) := by
  constructor
  · rw [lookup_at, Heap.get?_eq, h, Option.bind_none]
  · rw [run_assign, State.at, h]

theorem bound_at {name : Token} {owner : ScopeId} (h : s.heap.owner? name.lexeme id = some owner)
    (value : Value) :
    (∃ v, lookup name (s.at id) = (.ok v, s.at id)) ∧
      assign name value (s.at id) =
        (.ok (), { s.at id with heap := s.heap.define owner name.lexeme value }) := by
  constructor
  · have hsome := Heap.isSome_get? s.heap id name.lexeme
    rw [h, Option.isSome_some, Option.isSome_iff_exists] at hsome
    obtain ⟨v, hv⟩ := hsome
    exact ⟨v, by rw [lookup_at, hv]⟩
  · rw [run_assign, State.at, h]

theorem Rebinds.congr {name : String} {value : Value} {affected affected' : ScopeId → Prop}
    (h : Rebinds s t name value affected) (hiff : ∀ id, affected' id ↔ affected id) :
    Rebinds s t name value affected' := by
  intro id other
  rw [hiff id]
  exact h id other

-- What is bound in a scope is found from the scopes that see it.
theorem rebinds_define (h : s.heap.Older) {target : ScopeId} (ht : target < s.heap.size)
    (name : String) (value : Value) (current : ScopeId) :
    Rebinds s { s.at current with heap := s.heap.define target name value } name value
      fun id => s.heap.Sees name id target := by
  intro id other
  have hlater := lookup_at { s.at current with heap := s.heap.define target name value } id other
  rw [hlater, lookup_at]
  refine ⟨?_, fun hnot => ?_⟩
  · rintro ⟨rfl, hsees⟩
    simp only [hsees.get?_define h ht]
  · simp only [Heap.get?_define_of_not h ht hnot]

end

-- Scopes are shared. At every scope a name can be assigned to just if it can be looked up; where it
-- cannot, nothing changes, and the error is that of the name on its line. What is assigned is found
-- from all scopes from which the nearest scope with that name is the same one, what is defined from
-- all that see the scope. Anything else is found as before, and an assignment gives no scope a name
-- and takes none.
theorem scopes_are_shared {s : State} (hs : s.heap.Forest) {id : ScopeId} (hid : id < s.heap.size)
    (name : Token) (value : Value) :
    ((assign name value (s.at id)).1 = .ok () ↔ ∃ v, (lookup name (s.at id)).1 = .ok v) ∧
    (lookup name (s.at id)).2 = s.at id ∧
    (∀ halt, (lookup name (s.at id)).1 = .error halt ∨
        (assign name value (s.at id)).1 = .error halt →
      (assign name value (s.at id)).2 = s.at id ∧ ∃ e, halt = .error e ∧
        e.diagnostic = ⟨.running, name.line, some name,
          "Undefined variable '" ++ name.lexeme ++ "'."⟩) ∧
    (∀ t, assign name value (s.at id) = (.ok (), t) →
      Rebinds s t name.lexeme value (fun other => ∃ owner,
        s.heap.Nearest name.lexeme id owner ∧ s.heap.Nearest name.lexeme other owner) ∧
      t.heap.size = s.heap.size ∧
      ∀ scope other, (t.heap.bound? other scope).isSome = (s.heap.bound? other scope).isSome) ∧
    Rebinds s (defineIn id name.lexeme value (s.at id)).2 name.lexeme value
      fun other => s.heap.Sees name.lexeme other id := by
  have holder := hs.older
  rw [← and_assoc, ← and_assoc, ← and_assoc]
  refine ⟨?_, rebinds_define holder hid name.lexeme value id⟩
  cases ho : s.heap.owner? name.lexeme id with
  | none =>
    obtain ⟨hlookup, hassign⟩ := unbound_at ho value
    rw [hlookup, hassign]
    refine ⟨⟨⟨by simp, rfl⟩, fun halt hhalt => ⟨rfl, ?_⟩⟩,
      fun t ht => absurd (Prod.mk.inj ht).1 (by simp)⟩
    obtain rfl : _ = halt := by simpa using hhalt
    exact ⟨_, rfl, rfl⟩
  | some owner =>
    obtain ⟨⟨v, hlookup⟩, hassign⟩ := bound_at ho value
    have hnearest := holder.owner?_eq_some_iff.1 ho
    have howner : owner < s.heap.size := Heap.lt_of_isSome_bound? hnearest.2
    rw [hlookup, hassign]
    refine ⟨⟨⟨by simp, rfl⟩, fun halt hhalt => by simp at hhalt⟩, fun t ht => ?_⟩
    obtain rfl := (Prod.mk.inj ht).2
    refine ⟨(rebinds_define holder howner name.lexeme value id).congr fun other => ?_, ?_, ?_⟩
    · constructor
      · rintro ⟨owner', hnearest', hother⟩
        have heq := ho.symm.trans (holder.owner?_eq_some_iff.2 hnearest')
        exact Option.some.inj heq ▸ hother.1
      · exact fun hsees => ⟨owner, hnearest, hsees, hnearest.2⟩
    · exact Heap.size_define ..
    · intro scope other
      dsimp only
      rw [Heap.bound?_define howner]
      split
      · next heq => rw [← heq.1, heq.2, hnearest.2, Option.isSome_some]
      · rfl

-- The root of a tree of scopes binds `x`. Of the two scopes inside it the second has an `x` of its
-- own.
def siblings : State :=
  { State.initial (fun _ => 0) with
    heap := ((((Heap.create #[] none).define 0 "x" .nil).create (some 0)).create (some 0)).define 2
      "x" (.bool false) }

theorem forest_siblings : siblings.heap.Forest := by
  have hroot : ((Heap.create #[] none).define 0 "x" .nil).Forest :=
    .define (.create .empty (by simp)) (by decide) _ _
  have hfirst := @Heap.Forest.create _ hroot (some 0) (by simp)
  have hsecond := @Heap.Forest.create _ hfirst (some 0) (by simp)
  exact @Heap.Forest.define _ hsecond 2 (by decide) _ _

-- An assignment in the first changes what the root and the first see, not what the second sees.
theorem scopes_are_shared_siblings :
    let name : Token := ⟨.identifier, "x", .nil, 1⟩
    siblings.heap.Forest ∧ 1 < siblings.heap.size ∧ ∃ t,
      assign name (.bool true) (siblings.at 1) = (.ok (), t) ∧
      (lookup name (t.at 0)).1 = .ok (.bool true) ∧
      (lookup name (t.at 2)).1 = .ok (.bool false) := by
  intro name
  have hsize : 1 < siblings.heap.size := by decide
  obtain ⟨-, -, -, hassigned, -⟩ := scopes_are_shared forest_siblings hsize name (.bool true)
  have hnearest {id owner : ScopeId} (h : siblings.heap.owner? "x" id = some owner) :
      siblings.heap.Nearest "x" id owner := forest_siblings.older.owner?_eq_some_iff.1 h
  have hfirst : siblings.heap.owner? "x" 1 = some 0 := by decide +kernel
  have hroot : siblings.heap.owner? "x" 0 = some 0 := by decide +kernel
  have hsecond : siblings.heap.owner? "x" 2 = some 2 := by decide +kernel
  refine ⟨forest_siblings, hsize, _, (bound_at hfirst _).2, ?_⟩
  obtain ⟨hrebinds, -⟩ := hassigned _ (bound_at hfirst _).2
  refine ⟨(hrebinds 0 name).1 ⟨rfl, 0, hnearest hfirst, hnearest hroot⟩, ?_⟩
  refine ((hrebinds 2 name).2 ?_).trans (by with_unfolding_all rfl)
  rintro ⟨-, owner, howner, hother⟩
  have hzero := hfirst.symm.trans (forest_siblings.older.owner?_eq_some_iff.2 howner)
  have htwo := hsecond.symm.trans (forest_siblings.older.owner?_eq_some_iff.2 hother)
  exact absurd (hzero.trans htwo.symm) (by decide)

end Lox.Run
