import Lox.Proofs.Value.Region
import Lox.Proofs.Value.Twins

namespace Option.Rel

variable {α β γ δ : Type} {R R' : α → β → Prop} {S : γ → δ → Prop} {x : Option α} {y : Option β}

theorem imp (h : Option.Rel R x y) (hr : ∀ a ∈ x, ∀ b ∈ y, R a b → R' a b) :
    Option.Rel R' x y := by
  cases h with
  | none => exact .none
  | some hab => exact .some (hr _ rfl _ rfl hab)

theorem bind {f : α → Option γ} {f' : β → Option δ} (h : Option.Rel R x y)
    (hf : ∀ a b, R a b → Option.Rel S (f a) (f' b)) : Option.Rel S (x.bind f) (y.bind f') := by
  cases h with
  | none => exact .none
  | some hab => exact hf _ _ hab

theorem map {f : α → γ} {f' : β → δ} (h : Option.Rel R x y) (hf : ∀ a b, R a b → S (f a) (f' b)) :
    Option.Rel S (x.map f) (y.map f') := by
  cases h with
  | none => exact .none
  | some hab => exact .some (hf _ _ hab)

theorem isSome_eq (h : Option.Rel R x y) : x.isSome = y.isSome := by
  cases h <;> rfl

end Option.Rel

namespace Lox

-- Which scopes and functions of two heaps stand for each other. From a certain moment on they are
-- those that are created in turn. Before that, scopes stand for each other as given, and functions
-- have kept their identities. A hollow scope on the left binds nothing, and stands for what the
-- scope around it stands for.
structure Pairing where
  leftScopes : Nat
  rightScopes : Nat
  leftFunctions : Nat
  rightFunctions : Nat
  old : Nat → Nat → Prop
  hollow : Nat → Prop
  old_lt : ∀ {a b}, old a b → a < leftScopes ∧ b < rightScopes
  hollow_lt : ∀ {a}, hollow a → a < leftScopes
  old_functional : ∀ {a b b'}, old a b → old a b' → b = b'
  old_injective : ∀ {a a' b}, old a b → old a' b → ¬ hollow a → ¬ hollow a' → a = a'

namespace Pairing

variable (p : Pairing)

def scopes (a b : Nat) : Prop :=
  p.old a b ∨ ∃ k, a = p.leftScopes + k ∧ b = p.rightScopes + k

def identities (i j : Nat) : Prop :=
  i = j ∧ i < p.leftFunctions ∧ j < p.rightFunctions ∨
    ∃ k, i = p.leftFunctions + k ∧ j = p.rightFunctions + k

variable {p}

theorem scopes_functional {a b b' : Nat} (h : p.scopes a b) (h' : p.scopes a b') : b = b' := by
  obtain h | ⟨k, hk⟩ := h <;> obtain h' | ⟨k', hk'⟩ := h'
  · exact p.old_functional h h'
  · have := p.old_lt h
    omega
  · have := p.old_lt h'
    omega
  · omega

theorem scopes_injective {a a' b : Nat} (h : p.scopes a b) (h' : p.scopes a' b)
    (ha : ¬ p.hollow a) (ha' : ¬ p.hollow a') : a = a' := by
  obtain h | ⟨k, hk⟩ := h <;> obtain h' | ⟨k', hk'⟩ := h'
  · exact p.old_injective h h' ha ha'
  · have := p.old_lt h
    omega
  · have := p.old_lt h'
    omega
  · omega

theorem identities_iff {i i' j j' : Nat} (h : p.identities i j) (h' : p.identities i' j') :
    i = i' ↔ j = j' := by
  obtain ⟨rfl, hi, hj⟩ | ⟨k, hk⟩ := h <;> obtain ⟨rfl, hi', hj'⟩ | ⟨k', hk'⟩ := h' <;> omega

-- All scopes and functions stand for themselves.
def diagonal : Pairing where
  leftScopes := 0
  rightScopes := 0
  leftFunctions := 0
  rightFunctions := 0
  old _ _ := False
  hollow _ := False
  old_lt := False.elim
  hollow_lt := False.elim
  old_functional := fun h => h.elim
  old_injective := fun h => h.elim

theorem scopes_diagonal {a b : Nat} : diagonal.scopes a b ↔ a = b := by
  simp [scopes, diagonal, eq_comm]

theorem identities_diagonal {i j : Nat} : diagonal.identities i j ↔ i = j := by
  simp [identities, diagonal, eq_comm]

end Pairing

-- Functions of one declaration whose scopes stand for each other, or the same value that is no
-- function.
inductive Value.Paired (p : Pairing) : Value → Value → Prop
  | plain {v : Value} (h : ∀ f, v ≠ .function f) : Paired p v v
  | function {f : Function} {identity : Nat} {scope : ScopeId}
      (hi : p.identities f.identity identity) (hs : p.scopes f.scope scope) :
      Paired p (.function f) (.function { f with identity := identity, scope := scope })

namespace Value

variable {p : Pairing} {a a' b b' : Value}

theorem Paired.twins (h : Paired p a a') : Twins p.identities a a' := by
  cases h with
  | plain h => exact .plain h
  | function hi _ => exact .function rfl hi

theorem Paired.isTruthy (h : Paired p a a') : a'.isTruthy = a.isTruthy :=
  h.twins.isTruthy

theorem Paired.kindName (h : Paired p a a') : a'.kindName = a.kindName :=
  h.twins.kindName

theorem Paired.display (h : Paired p a a') : a'.display = a.display :=
  h.twins.display

-- Operators do not see which functions or scopes they are.
theorem Paired.binary {kind : TokenKind} {operation : Value → Value → Value}
    (h : binary? kind = some operation) (ha : Paired p a a') (hb : Paired p b b') :
    operation a' b' = operation a b :=
  Twins.binary Pairing.identities_iff h ha.twins hb.twins

theorem Paired.unary {kind : TokenKind} {operation : Value → Value}
    (h : unary? kind = some operation) (ha : Paired p a a') : operation a' = operation a :=
  Twins.unary h ha.twins

end Value

theorem Value.Paired.nil {p : Pairing} : Paired p .nil .nil :=
  .plain fun _ h => by cases h

theorem Value.paired_refl (v : Value) : v.Paired .diagonal v := by
  cases v with
  | function f =>
    exact .function (Pairing.identities_diagonal.2 rfl) (Pairing.scopes_diagonal.2 rfl)
  | _ => exact .plain fun _ h => by cases h

theorem Literal.paired_value (p : Pairing) (literal : Literal) :
    literal.value.Paired p literal.value := by
  cases literal <;> exact .plain (fun _ h => by cases h)

-- Scopes that bind the same names to values that stand for each other. Whether they are older than
-- the scopes around them is part of it, since names are looked up outwards only as long as that is
-- so.
structure Scope.Paired (p : Pairing) (a b : ScopeId) (x y : Scope) : Prop where
  enclosing : Option.Rel (fun o o' => p.scopes o o' ∧ (o < a ↔ o' < b)) x.enclosing y.enclosing
  values : ∀ name, Option.Rel (Value.Paired p) (x.find? name) (y.find? name)

theorem Scope.Paired.define {p : Pairing} {a b : ScopeId} {x y : Scope} (h : x.Paired p a b y)
    (name : String) {v w : Value} (hv : v.Paired p w) :
    (x.define name v).Paired p a b (y.define name w) := by
  refine ⟨h.enclosing, fun other => ?_⟩
  simp only [Scope.find?, Scope.define, Bindings.find?_put]
  split
  · exact .some hv
  · exact h.values other

-- Heaps in which scopes that stand for each other are alike.
structure Heap.Paired (p : Pairing) (g h : Heap) : Prop where
  sizes : ∃ k, g.size = p.leftScopes + k ∧ h.size = p.rightScopes + k
  solid : ∀ a b, p.scopes a b → ¬ p.hollow a → Option.Rel (Scope.Paired p a b) g[a]? h[b]?
  hollow : ∀ a b, p.scopes a b → p.hollow a →
    ∃ outer, g[a]? = some ⟨some outer, []⟩ ∧ outer < a ∧ p.scopes outer b

namespace Heap.Paired

variable {p : Pairing} {g h : Heap}

theorem present (hp : g.Paired p h) {a b : Nat} (hab : p.scopes a b) : a < g.size ↔ b < h.size := by
  obtain ⟨k, hk⟩ := hp.sizes
  obtain hold | ⟨k', hk'⟩ := hab
  · have := p.old_lt hold
    omega
  · omega

theorem next (hp : g.Paired p h) : p.scopes g.size h.size :=
  .inr hp.sizes

theorem solid_next (hp : g.Paired p h) : ¬ p.hollow g.size := by
  intro hhollow
  have := p.hollow_lt hhollow
  obtain ⟨k, hk⟩ := hp.sizes
  omega

-- Names are found in scopes that stand for each other, never in hollow ones.
theorem owner? (hp : g.Paired p h) (name : String) {a b : ScopeId} (hab : p.scopes a b) :
    Option.Rel (fun o o' => p.scopes o o' ∧ ¬ p.hollow o) (g.owner? name a) (h.owner? name b) := by
  induction a using Nat.strongRecOn generalizing b with
  | ind a ih =>
    by_cases hhollow : p.hollow a
    · obtain ⟨outer, hscope, hlt, houter⟩ := hp.hollow a b hab hhollow
      rw [Heap.owner?, hscope]
      simpa [Scope.find?, Bindings.find?, hlt] using ih outer hlt houter
    · have hscopes := hp.solid a b hab hhollow
      rw [Heap.owner?, Heap.owner?]
      generalize g[a]? = x, h[b]? = y at hscopes
      cases hscopes with
      | none => exact .none
      | @some x y hscopes =>
        dsimp only
        rw [← (hscopes.values name).isSome_eq]
        split
        · exact .some ⟨hab, hhollow⟩
        · have houter := hscopes.enclosing
          generalize x.enclosing = o, y.enclosing = o' at houter
          cases houter with
          | none => exact .none
          | @some o o' houter =>
            obtain ⟨hscope, hage⟩ := houter
            dsimp only
            split
            · next hlt =>
              rw [if_pos (hage.1 hlt)]
              exact ih o hlt hscope
            · next hlt =>
              rw [if_neg fun hlt' => hlt (hage.2 hlt')]
              exact .none

theorem get? (hp : g.Paired p h) {a b : ScopeId} (hab : p.scopes a b) (name : String) :
    Option.Rel (Value.Paired p) (g.get? a name) (h.get? b name) := by
  simp only [Heap.get?, Option.bind_eq_bind]
  refine (hp.owner? name hab).bind fun o o' howner => ?_
  exact (hp.solid o o' howner.1 howner.2).bind fun _ _ hscope => hscope.values name

-- Binding a name on both sides, in a scope that is not hollow.
theorem define (hp : g.Paired p h) {a b : ScopeId} (hab : p.scopes a b) (hsolid : ¬ p.hollow a)
    (name : String) {v w : Value} (hv : v.Paired p w) :
    Heap.Paired p (g.define a name v) (h.define b name w) := by
  refine ⟨by simpa using hp.sizes, fun a' b' hab' hsolid' => ?_, fun a' b' hab' hhollow => ?_⟩
  · have hscopes := hp.solid a' b' hab' hsolid'
    rw [Heap.getElem?_define, Heap.getElem?_define]
    by_cases ha : a = a'
    · have hb : b = b' := Pairing.scopes_functional hab (ha ▸ hab')
      rw [if_pos ha, if_pos hb]
      exact hscopes.map fun _ _ hscope => hscope.define name hv
    · have hb : b ≠ b' := fun hb =>
        ha (Pairing.scopes_injective hab (hb ▸ hab') hsolid hsolid')
      rwa [if_neg ha, if_neg hb]
  · have ha : a ≠ a' := fun ha => hsolid (ha ▸ hhollow)
    rw [Heap.getElem?_define, if_neg ha]
    exact hp.hollow a' b' hab' hhollow

theorem create (hp : g.Paired p h) {o o' : ScopeId} (ho : p.scopes o o') :
    Heap.Paired p (g.create (some o)) (h.create (some o')) := by
  refine ⟨?_, fun a b hab hsolid => ?_, fun a b hab hhollow => ?_⟩
  · obtain ⟨k, hk⟩ := hp.sizes
    exact ⟨k + 1, by simp only [Heap.size_create]; omega⟩
  · have hpresent := hp.present hab
    rw [Heap.getElem?_create, Heap.getElem?_create]
    by_cases ha : a = g.size
    · have hb : b = h.size := Pairing.scopes_functional (ha ▸ hab) hp.next
      rw [if_pos ha, if_pos hb]
      refine .some ⟨.some ⟨ho, ?_⟩, fun _ => .none⟩
      rw [ha, hb]
      exact hp.present ho
    · have hb : b ≠ h.size := fun hb =>
        ha (Pairing.scopes_injective hab (hb ▸ hp.next) hsolid hp.solid_next)
      rw [if_neg ha, if_neg hb]
      exact hp.solid a b hab hsolid
  · have ha : a ≠ g.size := fun ha => hp.solid_next (ha ▸ hhollow)
    rw [Heap.getElem?_create, if_neg ha]
    exact hp.hollow a b hab hhollow

end Heap.Paired

theorem Heap.paired_refl (heap : Heap) : heap.Paired .diagonal heap := by
  refine ⟨⟨heap.size, by simp [Pairing.diagonal]⟩, fun a b hab _ => ?_,
    fun a b _ hhollow => hhollow.elim⟩
  obtain rfl := Pairing.scopes_diagonal.1 hab
  cases heap[a]? with
  | none => exact .none
  | some x =>
    refine .some ⟨?_, fun name => ?_⟩
    · cases x.enclosing with
      | none => exact .none
      | some o => exact .some ⟨Pairing.scopes_diagonal.2 rfl, Iff.rfl⟩
    · cases x.find? name with
      | none => exact .none
      | some v => exact .some v.paired_refl

end Lox
