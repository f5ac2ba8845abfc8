import Lox.Proofs.Run.Parallel
import Lox.Proofs.Run.Reached
import Lox.Proofs.Run.Sound

namespace Lox

-- The same value, but for the identity of a function.
inductive Value.Renamed (identities : Nat → Nat → Prop) : Value → Value → Prop
  | plain {v : Value} (h : ∀ f, v ≠ .function f) : Renamed identities v v
  | function {f : Function} {identity : Nat} (h : identities f.identity identity) :
      Renamed identities (.function f) (.function { f with identity := identity })

-- Scopes in the same place that bind the same names to such values.
structure Scope.Renamed (identities : Nat → Nat → Prop) (x y : Scope) : Prop where
  enclosing : x.enclosing = y.enclosing
  values : ∀ name, Option.Rel (Value.Renamed identities) (x.find? name) (y.find? name)

namespace Run

-- States with the same tree of scopes in which a call finds the same values. Neither the values in
-- other scopes nor the place of the call have to be the same.
structure Call.FindsSame (c : Call) (s t : State) : Prop where
  size : s.heap.size = t.heap.size
  enclosing : ∀ (id : ScopeId) x y, s.heap[id]? = some x → t.heap[id]? = some y →
    x.enclosing = y.enclosing
  values : ∀ (id : ScopeId) x y name, s.heap.Reaches c.Holds id → s.heap[id]? = some x →
    t.heap[id]? = some y → x.find? name = y.find? name
  clock : ∀ k, s.clock (s.readings + k) = t.clock (t.readings + k)

-- The function and those among the arguments are functions of the state.
def Call.KnownTo (c : Call) (s : State) : Prop :=
  ∀ f, f = c.function ∨ .function f ∈ c.arguments → s.Has (.function f)

-- Functions that exist in both states, or that are created from there on in turn.
def sameOrNew (s t : State) (i j : Nat) : Prop :=
  i = j ∧ i < s.nextIdentity ∧ j < t.nextIdentity ∨
    ∃ k, i = s.nextIdentity + k ∧ j = t.nextIdentity + k

-- What a call finds in one state stands for the same in the other.
def Call.pairing (c : Call) (s t : State) (hsize : s.heap.size = t.heap.size) : Pairing where
  leftScopes := s.heap.size
  rightScopes := t.heap.size
  leftFunctions := s.nextIdentity
  rightFunctions := t.nextIdentity
  old a b := a = b ∧ a < s.heap.size ∧ s.heap.Reaches c.Holds a
  hollow _ := False
  old_lt := fun ⟨hab, ha, _⟩ => ⟨ha, by omega⟩
  hollow_lt := False.elim
  old_functional := fun ⟨hab, _⟩ ⟨hab', _⟩ => hab.symm.trans hab'
  old_injective := fun ⟨hab, _⟩ ⟨hab', _⟩ _ _ => hab.trans hab'.symm

section

variable {c : Call} {s t : State} {hsize : s.heap.size = t.heap.size}

theorem Call.KnownTo.argument (h : c.KnownTo s) {v : Value} (hv : v ∈ c.arguments) : s.Has v := by
  cases v with
  | function f => exact h f (.inr hv)
  | _ => trivial

theorem Call.KnownTo.lt_size (h : c.KnownTo s) (hs : s.Sound) {id : ScopeId}
    (hid : s.heap.Reaches c.Holds id) : id < s.heap.size := by
  refine known_empty_scopes.1 (hs.heap.of_reaches ?_ hid)
  rintro _ ⟨f, hf, rfl⟩
  exact (h f hf).1

theorem eq_of_scopes {a b : Nat} (h : (c.pairing s t hsize).scopes a b) : a = b := by
  obtain ⟨hab, -⟩ | ⟨k, ha, hb⟩ := h
  · exact hab
  · simp only [Call.pairing] at ha hb
    omega

theorem Value.Paired.renamed {v w : Value} (h : v.Paired (c.pairing s t hsize) w) :
    v.Renamed (sameOrNew s t) w := by
  cases h with
  | plain h => exact .plain h
  | @function f identity scope hi hs =>
    obtain rfl := eq_of_scopes hs
    exact .function hi

theorem Scope.Paired.renamed {a b : ScopeId} {x y : Scope}
    (h : x.Paired (c.pairing s t hsize) a b y) : x.Renamed (sameOrNew s t) y := by
  refine ⟨?_, fun name => (h.values name).imp fun _ _ _ _ hv => Value.Paired.renamed hv⟩
  have henclosing := h.enclosing
  generalize x.enclosing = o, y.enclosing = o' at henclosing
  cases henclosing with
  | none => rfl
  | some h => rw [eq_of_scopes h.1]

-- What is found in a scope that the call leads to.
theorem paired_of_has {v : Value} (hs : s.Has v) (ht : t.Has v)
    (hreach : ∀ f, v = .function f → s.heap.Reaches c.Holds f.scope) :
    v.Paired (c.pairing s t hsize) v := by
  cases v with
  | function f =>
    have hscope : f.scope < s.heap.size := known_empty_scopes.1 hs.1
    have hi : f.identity < s.nextIdentity := known_empty_identities.1 hs.2
    have hi' : f.identity < t.nextIdentity := known_empty_identities.1 ht.2
    exact .function (.inl ⟨rfl, hi, hi'⟩) (.inl ⟨rfl, hscope, hreach f rfl⟩)
  | _ => exact .plain fun _ h => by cases h

theorem Call.FindsSame.paired (h : c.FindsSame s t) (hs : s.Sound) (ht : t.Sound) :
    s.Paired (c.pairing s t h.size) s.printed t.printed t := by
  refine ⟨⟨⟨0, rfl, rfl⟩, fun a b hab _ => ?_, fun a b _ hhollow => hhollow.elim⟩, ⟨0, rfl, rfl⟩,
    h.clock, "", by simp, by simp⟩
  obtain ⟨rfl, ha, hreach⟩ | ⟨k, hk, hk'⟩ := hab
  · have hb : a < t.heap.size := h.size ▸ ha
    rw [Array.getElem?_eq_getElem ha, Array.getElem?_eq_getElem hb]
    have hx := Array.getElem?_eq_getElem ha
    have hy := Array.getElem?_eq_getElem hb
    have hin := hs.heap a _ (known_empty_scopes.2 ha) hx
    have hin' := ht.heap a _ (known_empty_scopes.2 hb) hy
    refine .some ⟨?_, fun name => ?_⟩
    · rw [← h.enclosing a _ _ hx hy]
      cases ho : s.heap[a].enclosing with
      | none => exact .none
      | some o =>
        have hlt : o < s.heap.size := known_empty_scopes.1 (hin.enclosing o ho)
        exact .some ⟨.inl ⟨rfl, hlt, .outwards hreach hx ho⟩, Iff.rfl⟩
    · have hfound := h.values a _ _ name hreach hx hy
      rw [← hfound]
      cases hv : s.heap[a].find? name with
      | none => exact .none
      | some v =>
        refine .some (paired_of_has (hin.values name v hv) (hin'.values name v (hfound ▸ hv)) ?_)
        rintro f rfl
        exact .captured hreach hx hv
  · simp only [Call.pairing] at hk hk'
    rw [Array.getElem?_eq_none (by omega), Array.getElem?_eq_none (by omega)]
    exact .none

end

-- A call is not told by where it stands. In two states with the same tree of scopes, in which the
-- scopes that the function and the arguments lead to bind the same values, it has the same outcome,
-- prints the same, and leaves those scopes and the new ones with the same values again. Only the
-- functions that it creates may have other identities.
theorem invoke_context_free {c : Call} {s t : State} (h : c.FindsSame s t) (hs : s.Sound)
    (ht : t.Sound) (hcs : c.KnownTo s) (hct : c.KnownTo t) (fuel : Nat) :
    Answers (Value.Renamed (sameOrNew s t)) (invoke fuel c.function c.arguments s).1
      (invoke fuel c.function c.arguments t).1 ∧
    (∃ text, (invoke fuel c.function c.arguments s).2.printed = s.printed ++ text ∧
      (invoke fuel c.function c.arguments t).2.printed = t.printed ++ text) ∧
    (invoke fuel c.function c.arguments s).2.heap.size =
      (invoke fuel c.function c.arguments t).2.heap.size ∧
    ∀ id, s.heap.Reaches c.Holds id ∨ s.heap.size ≤ id →
      Option.Rel (Scope.Renamed (sameOrNew s t)) (invoke fuel c.function c.arguments s).2.heap[id]?
        (invoke fuel c.function c.arguments t).2.heap[id]? := by
  have hfunction : Value.Paired (c.pairing s t h.size) (.function c.function)
      (.function c.function) := by
    refine paired_of_has (hcs _ (.inl rfl)) (hct _ (.inl rfl)) fun f hf => .root ⟨f, .inl ?_, rfl⟩
    exact (Value.function.inj hf).symm
  have harguments : List.Forall₂ (Value.Paired (c.pairing s t h.size)) c.arguments c.arguments :=
    List.forall₂_same.2 fun v hv => paired_of_has (hcs.argument hv) (hct.argument hv)
      fun f hf => .root ⟨f, .inr (hf ▸ hv), rfl⟩
  obtain ⟨hstate, -, -, hanswer⟩ := parallel_invoke _ s.printed t.printed fuel s t _ _ _ _
    (h.paired hs ht) hfunction harguments
  refine ⟨hanswer.imp fun _ _ => Value.Paired.renamed, hstate.printed, ?_, fun id hid => ?_⟩
  · obtain ⟨k, hk, hk'⟩ := hstate.heap.sizes
    rw [hk, hk']
    exact congrArg (· + k) h.size
  · have hpair : (c.pairing s t h.size).scopes id id := by
      obtain hreach | hle := hid
      · exact .inl ⟨rfl, hcs.lt_size hs hreach, hreach⟩
      · exact .inr ⟨id - s.heap.size, (Nat.add_sub_of_le hle).symm,
          by simp only [Call.pairing, ← h.size]; omega⟩
    exact (hstate.heap.solid id id hpair not_false).imp fun _ _ _ _ h => Scope.Paired.renamed h

-- A function of the outer one of two scopes that both bind the name that it reads.
def readsOuter : Function :=
  let name : Token := ⟨.identifier, "x", .nil, 1⟩
  ⟨0, ⟨.identifier, "f", .nil, 1⟩, [], [.returnFrom name (some (.variable name))], 0⟩

-- A place of its call, which can be deep in loops and calls.
def callSite (inner : Bool) (current : ScopeId) (depth : Nat) : State where
  heap :=
    (((Heap.create #[] none).define 0 "x" (.bool true)).create (some 0)).define 1 "x" (.bool inner)
  current := current
  loopDepth := depth
  functionDepth := depth
  nextIdentity := 1
  clock _ := 0
  readings := 0
  printed := ""

section

variable (inner : Bool) {current : ScopeId} (depth : Nat)

theorem sound_callSite (hcurrent : current < 2) : (callSite inner current depth).Sound := by
  have hempty : Heap.Closed (Origin.empty.known (callSite inner current depth)) #[] := by
    intro id scope _ hscope
    simp at hscope
  have houter : (Origin.empty.known (callSite inner current depth)).scopes 0 :=
    known_empty_scopes.2 Nat.two_pos
  have hglobal : Heap.Closed (Origin.empty.known (callSite inner current depth))
      ((Heap.create #[] none).define 0 "x" (.bool true)) :=
    (hempty.create (by simp)).define 0 "x" trivial
  refine ⟨⟨Nat.zero_le _, Nat.zero_le _, ?_⟩, known_empty_scopes.2 hcurrent⟩
  exact (hglobal.create (by simpa using houter)).define 1 "x" trivial

theorem knownTo_callSite : Call.KnownTo ⟨readsOuter, []⟩ (callSite inner current depth) := by
  rintro f (rfl | hf)
  · exact ⟨known_empty_scopes.2 Nat.two_pos, known_empty_identities.2 Nat.one_pos⟩
  · cases hf

theorem reaches_callSite {id : ScopeId}
    (h : (callSite inner current depth).heap.Reaches (Call.Holds ⟨readsOuter, []⟩) id) : id = 0 := by
  have hclosed : (callSite inner current depth).heap.Closed (.ofScopes (· = 0)) := by
    rintro id scope hid hscope
    obtain rfl : id = 0 := hid
    obtain rfl : ⟨none, [("x", .bool true)]⟩ = scope := Option.some.inj hscope
    exact (Scope.empty_in (by simp)).define "x" trivial
  refine hclosed.of_reaches ?_ h
  rintro _ ⟨f, rfl | hf, rfl⟩
  · rfl
  · cases hf

end

-- It does not see the `x` next to its call.
theorem invoke_context_free_outer :
    (invoke 1 readsOuter [] (callSite true 0 0)).1 = .ok (.bool true) ∧
    Answers (Value.Renamed (sameOrNew (callSite true 0 0) (callSite false 1 2)))
      (invoke 1 readsOuter [] (callSite true 0 0)).1
      (invoke 1 readsOuter [] (callSite false 1 2)).1 := by
  have hsame : Call.FindsSame ⟨readsOuter, []⟩ (callSite true 0 0) (callSite false 1 2) := by
    refine ⟨rfl, fun id x y hx hy => ?_, fun id x y name hid hx hy => ?_, fun _ => rfl⟩
    · match id with
      | 0 | 1 => exact Option.some.inj hx ▸ Option.some.inj hy ▸ rfl
      | id + 2 => exact absurd (Array.getElem?_eq_some_iff.1 hx).1 (by simp [callSite])
    · obtain rfl := reaches_callSite _ _ hid
      exact Option.some.inj (hx.symm.trans hy) ▸ rfl
  exact ⟨by with_unfolding_all rfl, (invoke_context_free hsame
    (sound_callSite true 0 Nat.two_pos) (sound_callSite false 2 Nat.one_lt_two)
    (knownTo_callSite true 0) (knownTo_callSite false 2) 1).1⟩

end Run

end Lox
