import Lox.Proofs.Grammar.Form
import Mathlib.Data.List.Forall2

namespace Lox.Grammar

variable {Name : Type}

-- What tokens come to if a form derives them and the values of phrases are of the given types.
def Form.Value (T : Name → Type) : Form Name → Type
  | .token _ => Token
  | .phrase name => T name
  | .sequence a b => a.Value T × b.Value T
  | .choice a b => a.Value T ⊕ b.Value T
  | .optional a => Option (a.Value T)
  | .many a | .upTo _ a => List (a.Value T)

section

variable {production : Name → Form Name} {T : Name → Type}

-- The values of derivations. The value of a phrase is made from that of its production by an
-- action, so that each derivation has one value.
inductive Means (action : ∀ name, (production name).Value T → T name) :
    (form : Form Name) → List Token → form.Value T → Prop
  | token {kind : TokenKind} {t : Token} : t.kind = kind → Means action (.token kind) [t] t
  | phrase {name : Name} {ts : List Token} {v : (production name).Value T} :
      Means action (production name) ts v → Means action (.phrase name) ts (action name v)
  | sequence {a b : Form Name} {us vs : List Token} {u : a.Value T} {v : b.Value T} :
      Means action a us u → Means action b vs v → Means action (.sequence a b) (us ++ vs) (u, v)
  | first {a b : Form Name} {ts : List Token} {v : a.Value T} :
      Means action a ts v → Means action (.choice a b) ts (Sum.inl v)
  | second {a b : Form Name} {ts : List Token} {v : b.Value T} :
      Means action b ts v → Means action (.choice a b) ts (Sum.inr v)
  | absent {a : Form Name} : Means action (.optional a) [] (none : Option (a.Value T))
  | present {a : Form Name} {ts : List Token} {v : a.Value T} :
      Means action a ts v → Means action (.optional a) ts (some v)
  | noMore {a : Form Name} : Means action (.many a) [] ([] : List (a.Value T))
  | oneMore {a : Form Name} {us vs : List Token} {v : a.Value T} {others : List (a.Value T)} :
      Means action a us v → Means action (.many a) vs others →
      Means action (.many a) (us ++ vs) (v :: others)
  | noMoreUpTo {limit : Nat} {a : Form Name} :
      Means action (.upTo limit a) [] ([] : List (a.Value T))
  | oneMoreUpTo {limit : Nat} {a : Form Name} {us vs : List Token} {v : a.Value T}
      {others : List (a.Value T)} : Means action a us v → Means action (.upTo limit a) vs others →
      Means action (.upTo (limit + 1) a) (us ++ vs) (v :: others)

-- The values of a form if those of phrases are given.
def Form.Gives (given : ∀ name, List Token → T name → Prop) :
    (form : Form Name) → List Token → form.Value T → Prop
  | .token kind, ts, t => ts = [t] ∧ t.kind = kind
  | .phrase name, ts, v => given name ts v
  | .sequence a b, ts, v => ∃ us vs, ts = us ++ vs ∧ a.Gives given us v.1 ∧ b.Gives given vs v.2
  | .choice a _, ts, Sum.inl v => a.Gives given ts v
  | .choice _ b, ts, Sum.inr v => b.Gives given ts v
  | .optional _, ts, none => ts = []
  | .optional a, ts, some v => a.Gives given ts v
  | .many a, ts, vs => ∃ parts : List (List Token), ts = parts.flatten ∧
      List.Forall₂ (a.Gives given) parts vs
  | .upTo limit a, ts, vs => ∃ parts : List (List Token), ts = parts.flatten ∧
      vs.length ≤ limit ∧ List.Forall₂ (a.Gives given) parts vs

variable {action : ∀ name, (production name).Value T → T name}

abbrev PhraseMeans (action : ∀ name, (production name).Value T → T name) (name : Name)
    (ts : List Token) (v : T name) : Prop :=
  Means action (.phrase name) ts v

theorem Form.Gives.imp {given given' : ∀ name, List Token → T name → Prop}
    (himp : ∀ name ts v, given name ts v → given' name ts v) {form : Form Name} {ts : List Token}
    {v : form.Value T} (h : form.Gives given ts v) : form.Gives given' ts v := by
  induction form generalizing ts with
  | token kind => exact h
  | phrase name => exact himp _ _ _ h
  | sequence a b iha ihb =>
    obtain ⟨us, vs, rfl, ha, hb⟩ := h
    exact ⟨us, vs, rfl, iha ha, ihb hb⟩
  | choice a b iha ihb =>
    cases v with
    | inl v => exact iha h
    | inr v => exact ihb h
  | optional a ih =>
    cases v with
    | none => exact h
    | some v => exact ih h
  | many a ih =>
    obtain ⟨parts, rfl, hparts⟩ := h
    exact ⟨parts, rfl, hparts.imp fun _ _ => ih⟩
  | upTo limit a ih =>
    obtain ⟨parts, rfl, hlen, hparts⟩ := h
    exact ⟨parts, rfl, hlen, hparts.imp fun _ _ => ih⟩

end

end Lox.Grammar
