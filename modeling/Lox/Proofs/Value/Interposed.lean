import Lox.Proofs.Value.Paired

namespace Lox

-- A pairing in which the scopes that exist on the left stand for the same as in another.
structure Pairing.Extends (p' p : Pairing) (size : Nat) : Prop where
  scopes : ∀ a b, a < size → p.scopes a b → p'.scopes a b
  hollow : ∀ a, a < size → (p'.hollow a ↔ p.hollow a)
  leftFunctions : p'.leftFunctions = p.leftFunctions
  rightFunctions : p'.rightFunctions = p.rightFunctions

namespace Pairing.Extends

variable {p p' p'' : Pairing} {size size' : Nat}

theorem refl (p : Pairing) (size : Nat) : p.Extends p size :=
  ⟨fun _ _ _ h => h, fun _ _ => Iff.rfl, rfl, rfl⟩

theorem trans (h : p'.Extends p size) (h' : p''.Extends p' size') (hle : size ≤ size') :
    p''.Extends p size where
  scopes a b ha hab := h'.scopes a b (Nat.lt_of_lt_of_le ha hle) (h.scopes a b ha hab)
  hollow a ha := (h'.hollow a (Nat.lt_of_lt_of_le ha hle)).trans (h.hollow a ha)
  leftFunctions := h'.leftFunctions.trans h.leftFunctions
  rightFunctions := h'.rightFunctions.trans h.rightFunctions

theorem identities (h : p'.Extends p size) {i j : Nat} : p'.identities i j ↔ p.identities i j := by
  rw [Pairing.identities, Pairing.identities, h.leftFunctions, h.rightFunctions]

end Pairing.Extends

section

variable {p p' : Pairing} {size : Nat} {r : Region}

theorem Value.Paired.extend {v w : Value} (hv : v.Paired p w) (he : p'.Extends p size)
    (hin : v.In r) (hr : ∀ id, r.scopes id → id < size) : v.Paired p' w := by
  cases hv with
  | plain h => exact .plain h
  | function hi hs => exact .function (he.identities.2 hi) (he.scopes _ _ (hr _ hin.1) hs)

theorem Scope.Paired.extend {a b : ScopeId} {x y : Scope} (h : x.Paired p a b y)
    (he : p'.Extends p size) (hin : x.In r) (hr : ∀ id, r.scopes id → id < size) :
    x.Paired p' a b y := by
  refine ⟨?_, fun name => ?_⟩
  · refine h.enclosing.imp fun o ho o' _ ⟨hscopes, hage⟩ => ⟨?_, hage⟩
    exact he.scopes o o' (hr o (hin.enclosing o ho)) hscopes
  · exact (h.values name).imp fun v hv w _ hvw => hvw.extend he (hin.values name v hv) hr

end

namespace Heap.Paired

variable {p : Pairing} {g h : Heap} {outer outer' : Nat}

-- The pairing after an empty scope was created on the left only, inside one that stands for a scope
-- on the right: it stands for the same.
def interposed (hp : g.Paired p h) (ho : p.scopes outer outer') (hlt : outer < g.size) :
    Pairing where
  leftScopes := g.size + 1
  rightScopes := h.size
  leftFunctions := p.leftFunctions
  rightFunctions := p.rightFunctions
  old a b := a < g.size ∧ p.scopes a b ∨ a = g.size ∧ b = outer'
  hollow a := p.hollow a ∨ a = g.size
  old_lt := by
    intro a b hab
    obtain ⟨ha, hab⟩ | ⟨rfl, rfl⟩ := hab
    · exact ⟨Nat.lt_succ_of_lt ha, (hp.present hab).1 ha⟩
    · exact ⟨Nat.lt_succ_self _, (hp.present ho).1 hlt⟩
  hollow_lt := by
    intro a ha
    obtain ⟨k, hk, -⟩ := hp.sizes
    obtain ha | rfl := ha
    · have := p.hollow_lt ha
      omega
    · exact Nat.lt_succ_self _
  old_functional := by
    intro a b b' hab hab'
    obtain ⟨ha, hab⟩ | ⟨ha, hb⟩ := hab <;> obtain ⟨ha', hab'⟩ | ⟨ha', hb'⟩ := hab'
    · exact Pairing.scopes_functional hab hab'
    · omega
    · omega
    · exact hb.trans hb'.symm
  old_injective := by
    intro a a' b hab hab' hsolid hsolid'
    rw [not_or] at hsolid hsolid'
    obtain ⟨-, hab⟩ | ⟨ha, -⟩ := hab
    · obtain ⟨-, hab'⟩ | ⟨ha', -⟩ := hab'
      · exact Pairing.scopes_injective hab hab' hsolid.1 hsolid'.1
      · exact absurd ha' hsolid'.2
    · exact absurd ha hsolid.2

variable (hp : g.Paired p h) (ho : p.scopes outer outer') (hlt : outer < g.size)
include hp ho hlt

theorem extends_interposed : (hp.interposed ho hlt).Extends p g.size where
  scopes _ _ ha hab := .inl (.inl ⟨ha, hab⟩)
  hollow _ ha := ⟨fun h => h.resolve_right (Nat.ne_of_lt ha), .inl⟩
  leftFunctions := rfl
  rightFunctions := rfl

theorem scopes_interposed : (hp.interposed ho hlt).scopes g.size outer' :=
  .inl (.inr ⟨rfl, rfl⟩)

theorem scopes_of_interposed {a b : Nat} (ha : a < g.size)
    (hab : (hp.interposed ho hlt).scopes a b) : p.scopes a b := by
  obtain (⟨-, hab⟩ | ⟨hnew, -⟩) | ⟨k, hk, -⟩ := hab
  · exact hab
  · exact absurd hnew (Nat.ne_of_lt ha)
  · simp only [interposed] at hk
    omega

theorem paired_interposed {r : Region} (hr : ∀ id, r.scopes id ↔ id < g.size)
    (hclosed : g.Closed r) : (g.create (some outer)).Paired (hp.interposed ho hlt) h := by
  have hext := hp.extends_interposed ho hlt
  refine ⟨⟨0, g.size_create _, rfl⟩, fun a b hab hsolid => ?_, fun a b hab hhollow => ?_⟩
  · obtain (⟨ha, hab⟩ | ⟨ha, -⟩) | ⟨k, ha, hb⟩ := hab
    · have hscopes := hp.solid a b hab fun hhollow => hsolid (.inl hhollow)
      rw [Heap.getElem?_create, if_neg (Nat.ne_of_lt ha)]
      exact hscopes.imp fun x hx y _ hxy =>
        hxy.extend hext (hclosed a x ((hr a).2 ha) hx) fun id => (hr id).1
    · exact absurd (.inr ha) hsolid
    · simp only [interposed] at ha hb
      rw [Array.getElem?_eq_none (by simp; omega), Array.getElem?_eq_none (by omega)]
      exact .none
  · obtain (⟨ha, hab⟩ | ⟨ha, hb⟩) | ⟨k, ha, hb⟩ := hab
    · rw [Heap.getElem?_create, if_neg (Nat.ne_of_lt ha)]
      obtain ⟨o, hscope, hlt', hob⟩ := hp.hollow a b hab (hhollow.resolve_right (Nat.ne_of_lt ha))
      exact ⟨o, hscope, hlt', hext.scopes o b (Nat.lt_trans hlt' ha) hob⟩
    · subst ha hb
      exact ⟨outer, by rw [Heap.getElem?_create, if_pos rfl], hlt, hext.scopes _ _ hlt ho⟩
    · have hold := (hp.interposed ho hlt).hollow_lt hhollow
      omega

end Heap.Paired

end Lox
