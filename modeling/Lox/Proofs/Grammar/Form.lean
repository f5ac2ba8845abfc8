import Lox.Token

namespace Lox.Grammar

-- The right side of a production: kinds of tokens and names of phrases, put together in sequence,
-- in choice, optionally, any number of times, or up to a number of times.
inductive Form (Name : Type) where
  | token (kind : TokenKind)
  | phrase (name : Name)
  | sequence (first second : Form Name)
  | choice (first second : Form Name)
  | optional (inner : Form Name)
  | many (inner : Form Name)
  | upTo (limit : Nat) (inner : Form Name)

instance : Append (Form Name) := ⟨.sequence⟩

instance : OrOp (Form Name) := ⟨.choice⟩

section

variable {Name : Type} {production : Name → Form Name}

-- The words that a form derives under the given productions.
inductive Derives (production : Name → Form Name) : Form Name → List TokenKind → Prop
  | token (kind : TokenKind) : Derives production (.token kind) [kind]
  | phrase {name w} : Derives production (production name) w → Derives production (.phrase name) w
  | sequence {a b u v} : Derives production a u → Derives production b v →
      Derives production (.sequence a b) (u ++ v)
  | first {a b w} : Derives production a w → Derives production (.choice a b) w
  | second {a b w} : Derives production b w → Derives production (.choice a b) w
  | absent {a} : Derives production (.optional a) []
  | present {a w} : Derives production a w → Derives production (.optional a) w
  | noMore {a} : Derives production (.many a) []
  | oneMore {a u v} : Derives production a u → Derives production (.many a) v →
      Derives production (.many a) (u ++ v)
  | noMoreUpTo {limit a} : Derives production (.upTo limit a) []
  | oneMoreUpTo {limit a u v} : Derives production a u → Derives production (.upTo limit a) v →
      Derives production (.upTo (limit + 1) a) (u ++ v)

-- The kinds of tokens that a form names itself.
def Form.kinds : Form Name → List TokenKind
  | .token kind => [kind]
  | .phrase _ => []
  | .sequence a b | .choice a b => a.kinds ++ b.kinds
  | .optional a | .many a | .upTo _ a => a.kinds

-- A kind of token that no production names is in no derivable word.
theorem Derives.ne_of_unnamed {form : Form Name} {w : List TokenKind}
    (h : Derives production form w) {kind : TokenKind} (hform : kind ∉ form.kinds)
    (hproduction : ∀ name, kind ∉ (production name).kinds) : kind ∉ w := by
  induction h with
  | token _ => exact hform
  | @phrase name _ _ ih => exact ih (hproduction name)
  | sequence _ _ iha ihb =>
    simp only [Form.kinds, List.mem_append, not_or] at hform ⊢
    exact ⟨iha hform.1, ihb hform.2⟩
  | first _ ih =>
    simp only [Form.kinds, List.mem_append, not_or] at hform
    exact ih hform.1
  | second _ ih =>
    simp only [Form.kinds, List.mem_append, not_or] at hform
    exact ih hform.2
  | absent | noMore | noMoreUpTo => simp
  | present _ ih => exact ih hform
  | oneMore _ _ iha ihb | oneMoreUpTo _ _ iha ihb =>
    simp only [List.mem_append, not_or]
    exact ⟨iha hform, ihb hform⟩

-- The tokens that a form admits if those that every phrase admits are given.
def Form.Admits (admitted : Name → List Token → Prop) : Form Name → List Token → Prop
  | .token kind, ts => ∃ t, ts = [t] ∧ t.kind = kind
  | .phrase name, ts => admitted name ts
  | .sequence a b, ts => ∃ us vs, ts = us ++ vs ∧ a.Admits admitted us ∧ b.Admits admitted vs
  | .choice a b, ts => a.Admits admitted ts ∨ b.Admits admitted ts
  | .optional a, ts => ts = [] ∨ a.Admits admitted ts
  | .many a, ts => ∃ parts : List (List Token),
      ts = parts.flatten ∧ ∀ us ∈ parts, a.Admits admitted us
  | .upTo limit a, ts => ∃ parts : List (List Token),
      parts.length ≤ limit ∧ ts = parts.flatten ∧ ∀ us ∈ parts, a.Admits admitted us

theorem Form.Admits.append {admitted : Name → List Token → Prop} {a b : Form Name}
    {us vs : List Token} (ha : a.Admits admitted us) (hb : b.Admits admitted vs) :
    (a ++ b).Admits admitted (us ++ vs) :=
  ⟨us, vs, rfl, ha, hb⟩

theorem admits_or {admitted : Name → List Token → Prop} {a b : Form Name} {ts : List Token} :
    (a ||| b).Admits admitted ts ↔ a.Admits admitted ts ∨ b.Admits admitted ts := Iff.rfl

theorem admits_token {admitted : Name → List Token → Prop} {t : Token} {kind : TokenKind}
    (h : t.kind = kind) : (Form.token kind).Admits admitted [t] :=
  ⟨t, rfl, h⟩

-- Derivability is the least choice of words that is closed under the productions. A proof about
-- all derivable words thus needs one step for each production.
theorem Derives.admits {admitted : Name → List Token → Prop}
    (hclosed : ∀ name ts, (production name).Admits admitted ts → admitted name ts)
    {form : Form Name} {w : List TokenKind} (h : Derives production form w) {ts : List Token}
    (hts : ts.map Token.kind = w) : form.Admits admitted ts := by
  induction h generalizing ts with
  | token kind =>
    obtain ⟨t, rfl, hk⟩ := List.map_eq_singleton_iff.1 hts
    exact ⟨t, rfl, hk⟩
  | phrase _ ih => exact hclosed _ _ (ih hts)
  | sequence _ _ iha ihb =>
    obtain ⟨us, vs, rfl, hu, hv⟩ := List.map_eq_append_iff.1 hts
    exact ⟨us, vs, rfl, iha hu, ihb hv⟩
  | first _ ih => exact .inl (ih hts)
  | second _ ih => exact .inr (ih hts)
  | absent => exact .inl (List.map_eq_nil_iff.1 hts)
  | present _ ih => exact .inr (ih hts)
  | noMore => exact ⟨[], List.map_eq_nil_iff.1 hts, by simp⟩
  | oneMore _ _ iha ihb =>
    obtain ⟨us, vs, rfl, hu, hv⟩ := List.map_eq_append_iff.1 hts
    obtain ⟨parts, rfl, hparts⟩ := ihb hv
    exact ⟨us :: parts, rfl, by simpa using ⟨iha hu, hparts⟩⟩
  | noMoreUpTo => exact ⟨[], by simp, List.map_eq_nil_iff.1 hts, by simp⟩
  | oneMoreUpTo _ _ iha ihb =>
    obtain ⟨us, vs, rfl, hu, hv⟩ := List.map_eq_append_iff.1 hts
    obtain ⟨parts, hlen, rfl, hparts⟩ := ihb hv
    exact ⟨us :: parts, by simpa using hlen, rfl, by simpa using ⟨iha hu, hparts⟩⟩

-- The tokens whose kinds a phrase derives.
def DerivesTokens (production : Name → Form Name) (name : Name) (ts : List Token) : Prop :=
  Derives production (.phrase name) (ts.map Token.kind)

theorem derives_of_admits (form : Form Name) {ts : List Token}
    (h : form.Admits (DerivesTokens production) ts) :
    Derives production form (ts.map Token.kind) := by
  induction form generalizing ts with
  | token kind =>
    obtain ⟨t, rfl, rfl⟩ := h
    exact .token t.kind
  | phrase name => exact h
  | sequence a b iha ihb =>
    obtain ⟨us, vs, rfl, ha, hb⟩ := h
    rw [List.map_append]
    exact .sequence (iha ha) (ihb hb)
  | choice a b iha ihb =>
    obtain h | h := h
    · exact .first (iha h)
    · exact .second (ihb h)
  | optional a ih =>
    obtain rfl | h := h
    · exact .absent
    · exact .present (ih h)
  | many a ih =>
    obtain ⟨parts, rfl, hparts⟩ := h
    induction parts with
    | nil => exact .noMore
    | cons us parts ihparts =>
      rw [List.flatten_cons, List.map_append]
      exact .oneMore (ih (hparts us (by simp))) (ihparts fun vs hv => hparts vs (by simp [hv]))
  | upTo limit a ih =>
    obtain ⟨parts, hlen, rfl, hparts⟩ := h
    induction parts generalizing limit with
    | nil => exact .noMoreUpTo
    | cons us parts ihparts =>
      obtain ⟨limit, rfl⟩ : ∃ l, limit = l + 1 := ⟨limit - 1, by simp at hlen; omega⟩
      rw [List.flatten_cons, List.map_append]
      exact .oneMoreUpTo (ih (hparts us (by simp)))
        (ihparts limit (by simpa using hlen) fun vs hv => hparts vs (by simp [hv]))

-- Conversely the derivable words are closed themselves.
theorem derives_phrase {name : Name} {ts : List Token}
    (h : (production name).Admits (DerivesTokens production) ts) :
    DerivesTokens production name ts :=
  .phrase (derives_of_admits _ h)

end

end Lox.Grammar
