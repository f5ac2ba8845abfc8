import Lox.Proofs.Syntax.Outlined

namespace Lox

open Syntax

section

variable {t t' : Token} {kinds : List TokenKind}

theorem Token.relined_eq (hk : t.kind = t'.kind) (hlexeme : t.lexeme = t'.lexeme)
    (hliteral : t.literal = t'.literal) :
    (t.relined fun _ => 0) = t'.relined fun _ => 0 := by
  rw [relined, relined, hk, hlexeme, hliteral]

-- Names that are spelled alike differ in nothing but their lines.
theorem Token.Of.name_eq (h : t.Of Token.Legible [.identifier])
    (h' : t'.Of Token.Legible [.identifier]) (heq : t.lexeme.toList = t'.lexeme.toList) :
    (t.relined fun _ => 0) = t'.relined fun _ => 0 := by
  have hnil : ∀ {t : Token}, t.Of Token.Legible [.identifier] → t.literal = .nil := by
    intro t ht
    have hspelled := ht.property.spelled
    rwa [Token.Spelled, ht.kind_eq] at hspelled
  exact Token.relined_eq (h.kind_eq.trans h'.kind_eq.symm) (String.toList_inj.1 heq)
    ((hnil h).trans (hnil h').symm)

-- Kinds that are not open and of which no two are spelled alike.
def TokenKind.Told (kinds : List TokenKind) : Prop :=
  ∀ kind ∈ kinds, ¬ kind.Open ∧ ∀ kind' ∈ kinds, kind.spelling = kind'.spelling → kind = kind'

instance (kinds : List TokenKind) : Decidable (TokenKind.Told kinds) :=
  inferInstanceAs (Decidable (∀ kind ∈ kinds, _))

-- Their tokens differ in nothing but their lines if they are spelled alike.
theorem Token.Of.operator_eq (hkinds : TokenKind.Told kinds) (h : t.Of Token.Legible kinds)
    (h' : t'.Of Token.Legible kinds) (heq : t.lexeme = t'.lexeme) :
    (t.relined fun _ => 0) = t'.relined fun _ => 0 := by
  have hnil : ∀ {t : Token}, t.Of Token.Legible kinds → t.literal = .nil := fun ht =>
    ((Token.spelled_iff (hkinds _ ht.kind).1).1 ht.property.spelled).1
  have hspelling := heq
  rw [h.lexeme_eq fun kind hk => (hkinds kind hk).1,
    h'.lexeme_eq fun kind hk => (hkinds kind hk).1] at hspelling
  exact Token.relined_eq ((hkinds _ h.kind).2 _ h'.kind hspelling) heq
    ((hnil h).trans (hnil h').symm)

theorem Token.Of.keyword_eq {kind : TokenKind} (h : t.Of Token.Legible [kind])
    (h' : t'.Of Token.Legible [kind]) (hopen : ¬ kind.Open) :
    (t.relined fun _ => 0) = t'.relined fun _ => 0 := by
  have htold : TokenKind.Told [kind] := by simp [TokenKind.Told, hopen]
  refine Token.Of.operator_eq htold h h' ?_
  rw [h.lexeme_eq (by simp [hopen]), h'.lexeme_eq (by simp [hopen]), h.kind_eq, h'.kind_eq]

theorem names_eq {ts ts' : List Token} (h : ∀ t ∈ ts, t.Of Token.Legible [.identifier])
    (h' : ∀ t ∈ ts', t.Of Token.Legible [.identifier])
    (heq : ts.map (·.lexeme.toList) = ts'.map (·.lexeme.toList)) :
    ts.map (·.relined fun _ => 0) = ts'.map (·.relined fun _ => 0) := by
  induction ts generalizing ts' with
  | nil =>
    cases ts' with
    | nil => rfl
    | cons t' ts' => cases heq
  | cons t ts ih =>
    cases ts' with
    | nil => cases heq
    | cons t' ts' =>
      obtain ⟨ht, hts⟩ := List.forall_mem_cons.1 h
      obtain ⟨ht', hts'⟩ := List.forall_mem_cons.1 h'
      obtain ⟨hfirst, hrest⟩ := List.cons.inj heq
      rw [List.map_cons, List.map_cons, ht.name_eq ht' hfirst, ih hts hts' hrest]

end

namespace Syntax

section

variable {words words' : List (List Char)} {more more' : List Char}

theorem stops_words (words : List (List Char)) (h : Stops more) :
    Stops (words.flatMap (", ".toList ++ ·) ++ more) := by
  cases words with
  | nil => exact h
  | cons word words => exact stops_cons (by decide)

-- Words behind commas end at a parenthesis.
theorem words_unique (h : ∀ w ∈ words, IsWord w) (h' : ∀ w ∈ words', IsWord w)
    (heq : words.flatMap (", ".toList ++ ·) ++ ')' :: more =
      words'.flatMap (", ".toList ++ ·) ++ ')' :: more') : words = words' := by
  induction words generalizing words' with
  | nil =>
    cases words' with
    | nil => rfl
    | cons word' words' => exact absurd (List.cons.inj heq).1 (by decide)
  | cons word words ih =>
    cases words' with
    | nil => exact absurd (List.cons.inj heq).1 (by decide)
    | cons word' words' =>
      obtain ⟨hword, hwords⟩ := List.forall_mem_cons.1 h
      obtain ⟨hword', hwords'⟩ := List.forall_mem_cons.1 h'
      have hparen : ∀ {more : List Char}, Stops (')' :: more) := stops_cons (by decide)
      rw [List.flatMap_cons, List.flatMap_cons, List.append_assoc, List.append_assoc,
        List.append_assoc, List.append_assoc] at heq
      obtain ⟨rfl, hrest⟩ := hword.unique hword' (stops_words words hparen)
        (stops_words words' hparen) (List.append_cancel_left heq)
      rw [ih hwords hwords' hrest]

theorem signature_unique (h : ∀ w ∈ words, IsWord w) (h' : ∀ w ∈ words', IsWord w)
    (heq : signature words = signature words') : words = words' := by
  have hend : ") \x7b".toList = ')' :: [' ', '\x7b'] := by decide
  have hparen : ∀ {more : List Char}, Stops (')' :: more) := stops_cons (by decide)
  rw [signature, signature, hend] at heq
  cases words with
  | nil =>
    cases words' with
    | nil => rfl
    | cons word' words' =>
      obtain ⟨hword', -⟩ := List.forall_mem_cons.1 h'
      rw [join_cons, List.append_assoc] at heq
      exact absurd heq.symm (hword'.append_ne hparen)
  | cons word words =>
    cases words' with
    | nil =>
      obtain ⟨hword, -⟩ := List.forall_mem_cons.1 h
      rw [join_cons, List.append_assoc] at heq
      exact absurd heq (hword.append_ne hparen)
    | cons word' words' =>
      rw [join_cons, join_cons] at heq
      exact words_unique h h' (by simpa using heq)

theorem headingOf_unique {name name' : Token} {parameters parameters' : List Token}
    (hname : IsWord name.lexeme.toList) (hname' : IsWord name'.lexeme.toList)
    (h : ∀ p ∈ parameters, IsWord p.lexeme.toList)
    (h' : ∀ p ∈ parameters', IsWord p.lexeme.toList)
    (heq : headingOf name parameters = headingOf name' parameters') :
    name.lexeme.toList = name'.lexeme.toList ∧
      parameters.map (·.lexeme.toList) = parameters'.map (·.lexeme.toList) := by
  obtain ⟨hlexeme, hrest⟩ := hname.unique hname' (stops_cons (by decide)) (stops_cons (by decide))
    (List.cons.inj heq).2
  exact ⟨hlexeme, signature_unique (List.forall_mem_map.2 h) (List.forall_mem_map.2 h')
    (List.cons.inj hrest).2⟩

end

end Syntax

-- The literals that are words of their own.
def Literal.constants : List Literal :=
  [.nil, .bool true, .bool false]

section

variable {value value' : Literal}

theorem Literal.Legible.cases (h : value.Legible) :
    value ∈ constants ∨
      (∃ x, Number.magnitude x < Number.infinity ∧ value = .number x) ∨
      ∃ text, value = .string text := by
  cases value with
  | nil => exact .inl (by simp [constants])
  | bool value => cases value <;> exact .inl (by simp [constants])
  | number x => exact .inr (.inl ⟨x, h, rfl⟩)
  | string text => exact .inr (.inr ⟨text, rfl⟩)
  | primitive value => exact h.elim
  | undefined value => exact h.elim

theorem Literal.sexp_of_constant (h : value ∈ constants) :
    ∃ pair ∈ reservedWords, value.sexp = .word pair.1.toList := by
  simp only [constants, List.mem_cons, List.not_mem_nil, or_false] at h
  obtain rfl | rfl | rfl := h
  · exact ⟨("nil", .nilKw), by decide, rfl⟩
  · exact ⟨("true", .trueKw), by decide, rfl⟩
  · exact ⟨("false", .falseKw), by decide, rfl⟩

theorem Literal.eq_of_constants (h : value ∈ constants) (h' : value' ∈ constants)
    (heq : value.sexp = value'.sexp) : value = value' := by
  simp only [constants, List.mem_cons, List.not_mem_nil, or_false] at h h'
  obtain rfl | rfl | rfl := h <;> obtain rfl | rfl | rfl := h' <;>
    first | rfl | exact absurd (Sexp.word.inj heq) (by decide)

theorem Literal.constant_ne_number {x : Float} (h : value ∈ constants)
    (hx : Number.magnitude x < Number.infinity) : value.sexp ≠ (Literal.number x).sexp := by
  obtain ⟨pair, hpair, hsexp⟩ := Literal.sexp_of_constant h
  intro heq
  rw [hsexp] at heq
  exact display_ne_word hx (Source.wordKind_of_mem hpair).2 (Sexp.word.inj heq).symm

theorem Literal.constant_ne_string {text : String} (h : value ∈ constants) :
    value.sexp ≠ (Literal.string text).sexp := by
  obtain ⟨pair, -, hsexp⟩ := Literal.sexp_of_constant h
  intro heq
  rw [hsexp] at heq
  cases heq

-- Literals that can be shown are told by their forms.
theorem Literal.Legible.unique (h : value.Legible) (h' : value'.Legible)
    (heq : value.sexp = value'.sexp) : value = value' := by
  obtain hc | ⟨x, hx, rfl⟩ | ⟨text, rfl⟩ := h.cases
  · obtain hc' | ⟨x', hx', rfl⟩ | ⟨text', rfl⟩ := h'.cases
    · exact Literal.eq_of_constants hc hc' heq
    · exact absurd heq (Literal.constant_ne_number hc hx')
    · exact absurd heq (Literal.constant_ne_string hc)
  · obtain hc' | ⟨x', hx', rfl⟩ | ⟨text', rfl⟩ := h'.cases
    · exact absurd heq.symm (Literal.constant_ne_number hc' hx)
    · rw [Number.display_injective hx hx' (String.toList_inj.1 (Sexp.word.inj heq))]
    · cases heq
  · obtain hc' | ⟨x', -, rfl⟩ | ⟨text', rfl⟩ := h'.cases
    · exact absurd heq.symm (Literal.constant_ne_string hc')
    · cases heq
    · rw [String.toList_inj.1 (Sexp.quoted.inj heq)]

-- No literal is written like a name.
theorem Literal.Legible.ne_name {name : Token} (h : value.Legible)
    (hname : name.Of Token.Legible [.identifier]) : value.sexp ≠ .word name.lexeme.toList := by
  intro heq
  obtain hc | ⟨x, hx, rfl⟩ | ⟨text, rfl⟩ := h.cases
  · obtain ⟨pair, hpair, hsexp⟩ := Literal.sexp_of_constant hc
    rw [hsexp] at heq
    exact hname.property.free hname.kind_eq pair hpair (String.toList_inj.1 (Sexp.word.inj heq))
  · exact display_ne_word hx (hname.property.word hname.kind_eq) (Sexp.word.inj heq)
  · cases heq

end

end Lox
