import Lox.Proofs.Grammar.Production
import Lox.Proofs.Syntax.Reads

namespace Lox.Grammar

open Syntax

abbrev Derived : Phrase → List Token → Prop :=
  DerivesTokens production

theorem derived_of_admits {name : Phrase} {us ts : List Token}
    (h : (production name).Admits Derived us) (hts : us = ts) : Derived name ts :=
  hts ▸ derives_phrase h

theorem lt_listLimit_of_excess {what : ListItem} {count : Nat} {w : List Token} (hw : w ≠ [])
    (hx : excess what count w = []) : count < listLimit := by
  obtain ⟨t, ts, rfl⟩ := List.exists_cons_of_ne_nil hw
  refine Nat.lt_of_not_le fun hge => ?_
  simp [excess, hge] at hx

section

variable {α : Type} {what : ListItem} {count : Nat} {item : Form Phrase}
  {admitted : Phrase → List Token → Prop} {items : List (Span α)} {list : Span (List α)}

-- What the items of a list are, and that there are not too many, if the list is without errors.
theorem admits_items (h : Listed what count items list) (he : list.errors = [])
    (hne : ∀ s ∈ items, s.tokens ≠ [])
    (hi : ∀ s ∈ items, s.errors = [] → item.Admits admitted s.tokens) :
    ∃ (us : List Token) (parts : List (List Token)), count + parts.length < listLimit ∧
      list.tokens = us ++ parts.flatten ∧ item.Admits admitted us ∧
      ∀ vs ∈ parts, (Form.token .comma ++ item).Admits admitted vs := by
  induction h with
  | @last count s =>
    obtain ⟨hx, hs⟩ := List.append_eq_nil_iff.1 he
    exact ⟨s.tokens, [], lt_listLimit_of_excess (hne s (by simp)) hx, by simp,
      hi s (by simp) hs, by simp⟩
  | @next count items others s comma hc _ ih =>
    obtain ⟨hfirst, hothers⟩ := List.append_eq_nil_iff.1 he
    obtain ⟨-, hs⟩ := List.append_eq_nil_iff.1 hfirst
    obtain ⟨us, parts, hcount, htokens, hus, hvs⟩ := ih hothers
      (fun x hx => hne x (by simp [hx])) (fun x hx => hi x (by simp [hx]))
    refine ⟨s.tokens, (comma :: us) :: parts, by rw [List.length_cons]; omega,
      by simp [htokens], hi s (by simp) hs, ?_⟩
    simp only [List.mem_cons, forall_eq_or_imp]
    exact ⟨⟨[comma], us, rfl, admits_token hc, hus⟩, hvs⟩

theorem admits_listOf (h : Listed what 0 items list) (he : list.errors = [])
    (hne : ∀ s ∈ items, s.tokens ≠ [])
    (hi : ∀ s ∈ items, s.errors = [] → item.Admits admitted s.tokens) :
    (listOf item).Admits admitted list.tokens := by
  obtain ⟨us, parts, hcount, htokens, hus, hvs⟩ := admits_items h he hne hi
  exact ⟨us, parts.flatten, htokens, hus, parts, by omega, rfl, hvs⟩

end

end Lox.Grammar

namespace Lox.Syntax

open Grammar

namespace Level

def phrase : Level → Phrase
  | .assignment => .assignment
  | .chain .disjunction => .logicOr
  | .chain .conjunction => .logicAnd
  | .chain .equality => .equality
  | .chain .comparison => .comparison
  | .chain .term => .term
  | .chain .factor => .factor
  | .unary => .unary
  | .call => .call
  | .primary => .primary

end Level

-- The operators of a level as a form.
def Chain.operators : Chain → Form Phrase
  | .disjunction => .token .orKw
  | .conjunction => .token .andKw
  | .equality => .token .bangEqual ||| .token .equalEqual
  | .comparison =>
    .token .greater ||| .token .greaterEqual ||| .token .less ||| .token .lessEqual
  | .term => .token .minus ||| .token .plus
  | .factor => .token .slash ||| .token .star

theorem production_chain (c : Chain) :
    production (Level.chain c).phrase = chainOf (.phrase c.operand.phrase) c.operators := by
  cases c <;> rfl

theorem admits_operators {admitted : Phrase → List Token → Prop} {c : Chain} {t : Token}
    (h : t.kind ∈ c.kinds) : c.operators.Admits admitted [t] := by
  cases c <;> simp only [Chain.kinds, List.mem_cons, List.not_mem_nil, or_false] at h
  · exact admits_token h
  · exact admits_token h
  · exact h.imp admits_token admits_token
  · simp only [Chain.operators, admits_or]
    obtain h | h | h | h := h <;> simp [admits_token h]
  · exact h.imp admits_token admits_token
  · exact h.imp admits_token admits_token

-- Only a name alone, outside of parentheses, stands for a variable.
theorem Reads.eq_of_variable {level : Level} {s : Span Expr} {name : Token} (h : Reads level s)
    (hlevel : level ≠ .assignment) (hs : s.tree = .variable name) :
    name.kind = .identifier ∧ s = ⟨[name], .variable name, []⟩ := by
  induction h with
  | literal hv => cases hs
  | name ht =>
    obtain rfl := Expr.variable.inj hs
    exact ⟨ht, rfl⟩
  | grouping ho hc hi ih => cases hs
  | @call callee calls hf hc ha ih =>
    obtain rfl | ⟨calls, last, rfl⟩ := List.eq_nil_or_concat calls
    · obtain ⟨hk, rfl⟩ := ih (by simp) hs
      exact ⟨hk, rfl⟩
    · simp [List.concat_eq_append, Application.node] at hs
  | @unary operators operand ho hr ih =>
    cases operators with
    | nil => exact ih (by simp) hs
    | cons t ts => cases hs
  | @chain c first links hf ho hl ih =>
    obtain rfl | ⟨links, last, rfl⟩ := List.eq_nil_or_concat links
    · obtain ⟨hk, rfl⟩ := ih (by cases c <;> decide) hs
      exact ⟨hk, rfl⟩
    · simp only [List.concat_eq_append, List.foldl_append, List.foldl_cons, List.foldl_nil] at hs
      cases c <;> cases hs
  | plain hs' ih | assign ht hn he hv ih | misassign ht hn he hv ih => exact absurd rfl hlevel

theorem derived_expression {ts : List Token} (h : Derived .assignment ts) :
    Derived .expression ts :=
  derives_phrase h

theorem admits_arguments {items : List (Span Expr)} {list : Span (List Expr)}
    (h : InParens .arguments items list) (he : list.errors = [])
    (hne : ∀ a ∈ items, Reads .assignment a)
    (hi : ∀ a ∈ items, a.errors = [] → Derived .assignment a.tokens) :
    (Form.optional (.phrase .arguments)).Admits Derived list.tokens := by
  obtain ⟨rfl, rfl⟩ | h := h
  · exact .inl rfl
  · refine .inr (derives_phrase (admits_listOf h he (fun a ha => (hne a ha).ne_nil) ?_))
    exact fun a ha hae => derived_expression (hi a ha hae)

-- What is read without errors is derived.
theorem Reads.derived {level : Level} {s : Span Expr} (h : Reads level s) (he : s.errors = []) :
    Derived level.phrase s.tokens := by
  induction h with
  | @literal t value hv =>
    have hk := kind_of_constant? hv
    simp only [List.mem_cons, List.not_mem_nil, or_false] at hk
    apply derives_phrase
    simp only [Level.phrase, production, admits_or]
    obtain hk | hk | hk | hk | hk := hk <;> simp [admits_token hk]
  | @name t ht => exact derives_phrase (.inr (admits_token ht))
  | @grouping opening closing inner ho hc hi ih =>
    have hinner : (Form.phrase .expression).Admits Derived inner.tokens :=
      derived_expression (ih he)
    have hgroup := ((admits_token ho).append hinner).append (admits_token hc)
    exact derives_phrase (.inl (.inr (by simpa using hgroup)))
  | @call callee calls hf hc ha ih ihargs =>
    obtain ⟨hcallee, hcalls⟩ := List.append_eq_nil_iff.1 he
    rw [List.flatMap_eq_nil_iff] at hcalls
    apply derives_phrase
    refine ⟨callee.tokens, _, rfl, ih hcallee, calls.map Application.tokens,
      List.flatMap_def .., ?_⟩
    intro us hus
    obtain ⟨c, hmem, rfl⟩ := List.mem_map.1 hus
    obtain ⟨ho, hi, hclose⟩ := hc c hmem
    have hinner := admits_arguments hi (hcalls c hmem) (ha c hmem) (ihargs c hmem)
    have hcall := ((admits_token ho).append hinner).append (admits_token hclose)
    simpa [Application.tokens] using hcall
  | @unary operators operand ho hr ih =>
    induction operators with
    | nil => exact derives_phrase (.inr (ih he))
    | cons t ts ihops =>
      have hinner := ihops (fun x hx => ho x (by simp [hx])) he
      have hk := ho t (by simp)
      simp only [List.mem_cons, List.not_mem_nil, or_false] at hk
      refine derives_phrase (.inl ⟨[t], ts ++ operand.tokens, rfl, ?_, hinner⟩)
      exact hk.imp admits_token admits_token
  | @chain c first links hf ho hl ih ihlinks =>
    obtain ⟨hfirst, hlinks⟩ := List.append_eq_nil_iff.1 he
    rw [List.flatMap_eq_nil_iff] at hlinks
    apply derives_phrase
    rw [production_chain]
    refine ⟨first.tokens, _, rfl, ih hfirst, links.map Link.tokens, List.flatMap_def .., ?_⟩
    intro us hus
    obtain ⟨l, hmem, rfl⟩ := List.mem_map.1 hus
    exact ⟨[l.operator], l.operand.tokens, rfl, admits_operators (ho l hmem),
      ihlinks l hmem (hlinks l hmem)⟩
  | plain hs ih => exact derives_phrase (.inr (ih he))
  | @assign target value name equal ht hn hequal hv ih ihvalue =>
    obtain ⟨hk, rfl⟩ := ht.eq_of_variable (by simp) hn
    have hvalue : (Form.phrase .assignment).Admits Derived value.tokens :=
      ihvalue (by simpa using he)
    have hassign := ((admits_token hk).append (admits_token hequal)).append hvalue
    exact derives_phrase (.inl (by simpa using hassign))
  | misassign ht hn hequal hv ih ihvalue => simp at he

theorem Reads.admits {s : Span Expr} (h : Reads .assignment s) (he : s.errors = []) :
    (Form.phrase .expression).Admits Derived s.tokens :=
  derived_expression (h.derived he)

theorem ReadsOptional.admits {s : Span (Option Expr)} (h : ReadsOptional s) (he : s.errors = []) :
    (Form.optional (.phrase .expression)).Admits Derived s.tokens := by
  cases h with
  | absent => exact .inl rfl
  | present hs => exact .inr (hs.admits he)

theorem ReadsBare.derived {s : Span Stmt} (h : ReadsBare s) (he : s.errors = []) :
    Derived .exprStmt s.tokens := by
  cases h with
  | mk hv hs => exact derives_phrase ((hv.admits he).append (admits_token hs))

theorem ReadsVariable.derived {keyword : Token} {s : Span Stmt} (hk : keyword.kind = .varKw)
    (h : ReadsVariable s) (he : s.errors = []) : Derived .varDecl (keyword :: s.tokens) := by
  cases h with
  | @plain name semicolon hn hs =>
    have habsent : (Form.optional (.token .equal ++ .phrase .expression)).Admits Derived [] :=
      .inl rfl
    exact derives_phrase
      ((((admits_token hk).append (admits_token hn)).append habsent).append (admits_token hs))
  | @initialized name equal semicolon value hn hequal hv hs =>
    have hpresent : (Form.optional (.token .equal ++ .phrase .expression)).Admits Derived
        (equal :: value.tokens) := .inr ((admits_token hequal).append (hv.admits he))
    exact derived_of_admits ((((admits_token hk).append (admits_token hn)).append hpresent).append
      (admits_token hs)) (by simp)

theorem ReadsInitializer.admits {s : Span (Option Stmt)} (h : ReadsInitializer s)
    (he : s.errors = []) :
    (Form.phrase .varDecl ||| .phrase .exprStmt ||| .token .semicolon).Admits Derived s.tokens := by
  cases h with
  | absent hs => exact .inr (admits_token hs)
  | declared hk hd => exact .inl (.inl (hd.derived hk he))
  | bare hs => exact .inl (.inr (hs.derived he))

def Slot.phrase : Slot → Phrase
  | .free => .declaration
  | .nested => .statement

theorem derived_declarations {body : List (Span Stmt)}
    (hb : ∀ s ∈ body, s.errors = [] → Derived .declaration s.tokens)
    (he : body.flatMap Span.errors = []) :
    (Form.many (.phrase .declaration)).Admits Derived (body.flatMap Span.tokens) := by
  rw [List.flatMap_eq_nil_iff] at he
  refine ⟨body.map Span.tokens, List.flatMap_def .., fun us hus => ?_⟩
  obtain ⟨s, hmem, rfl⟩ := List.mem_map.1 hus
  exact hb s hmem (he s hmem)

theorem derived_statement (form : Phrase) {ts : List Token}
    (hform : form ∈ [.exprStmt, .forStmt, .ifStmt, .printStmt, .returnStmt, .whileStmt, .breakStmt,
      .block]) (h : Derived form ts) : Derived .statement ts := by
  apply derives_phrase
  simp only [production, admits_or, Form.Admits]
  simp only [List.mem_cons, List.not_mem_nil, or_false] at hform
  obtain rfl | rfl | rfl | rfl | rfl | rfl | rfl | rfl := hform <;> simp [h]

theorem ReadsStmt.derived {slot : Slot} {tail : Tail} {s : Span Stmt} (h : ReadsStmt slot tail s)
    (he : s.errors = []) : Derived slot.phrase s.tokens := by
  induction h with
  | bare hs => exact derived_statement .exprStmt (by simp) (hs.derived he)
  | print hk hv hs =>
    exact derived_statement .printStmt (by simp) (derived_of_admits
      (((admits_token hk).append (hv.admits he)).append (admits_token hs)) rfl)
  | returnFrom hk hv hs =>
    exact derived_statement .returnStmt (by simp) (derived_of_admits
      (((admits_token hk).append (hv.admits he)).append (admits_token hs)) rfl)
  | breakLoop hk hs =>
    exact derived_statement .breakStmt (by simp) (derived_of_admits
      ((admits_token hk).append (admits_token hs)) rfl)
  | block ho hb hc ih =>
    exact derived_statement .block (by simp) (derived_of_admits
      (((admits_token ho).append (derived_declarations ih he)).append (admits_token hc)) rfl)
  | @loop keyword condition body tail hk hc hb ih =>
    obtain ⟨hce, hbe⟩ := List.append_eq_nil_iff.1 he
    have hbody : (Form.phrase .statement).Admits Derived body.tokens := ih hbe
    cases hc with
    | mk ho hi hclose =>
      exact derived_statement .whileStmt (by simp) (derived_of_admits
        (((((admits_token hk).append (admits_token ho)).append (hi.admits hce)).append
          (admits_token hclose)).append hbody) (by simp))
  | @forLoop keyword opening semicolon closing initializer condition increment body tail hk ho hi
      hc hs hn hp hb ih =>
    simp only [List.append_eq_nil_iff] at he
    obtain ⟨⟨⟨hie, hce⟩, hne⟩, hbe⟩ := he
    have hbody : (Form.phrase .statement).Admits Derived body.tokens := ih hbe
    exact derived_statement .forStmt (by simp) (derived_of_admits
      ((((((((admits_token hk).append (admits_token ho)).append (hi.admits hie)).append
        (hc.admits hce)).append (admits_token hs)).append (hn.admits hne)).append
        (admits_token hp)).append hbody) (by simp))
  | @ifThen keyword condition yes hk hc hy ih =>
    obtain ⟨hce, hye⟩ := List.append_eq_nil_iff.1 he
    have hyes : (Form.phrase .statement).Admits Derived yes.tokens := ih hye
    have helse : (Form.optional (.token .elseKw ++ .phrase .statement)).Admits Derived [] :=
      .inl rfl
    cases hc with
    | mk ho hi hclose =>
      exact derived_statement .ifStmt (by simp) (derived_of_admits
        ((((((admits_token hk).append (admits_token ho)).append (hi.admits hce)).append
          (admits_token hclose)).append hyes).append helse) (by simp))
  | @ifElse keyword other condition yes no tail hk hc hy helse hn ih ih' =>
    simp only [List.append_eq_nil_iff] at he
    obtain ⟨⟨hce, hye⟩, hne⟩ := he
    have hyes : (Form.phrase .statement).Admits Derived yes.tokens := ih hye
    have hno : (Form.phrase .statement).Admits Derived no.tokens := ih' hne
    have helse : (Form.optional (.token .elseKw ++ .phrase .statement)).Admits Derived
        ([other] ++ no.tokens) := .inr ((admits_token helse).append hno)
    cases hc with
    | mk ho hi hclose =>
      exact derived_statement .ifStmt (by simp) (derived_of_admits
        ((((((admits_token hk).append (admits_token ho)).append (hi.admits hce)).append
          (admits_token hclose)).append hyes).append helse) (by simp))
  | weaken hs ih => exact ih he
  | free hs ih => exact derives_phrase (.inr (ih he))
  | declared hk hd => exact derives_phrase (.inl (.inr (hd.derived hk he)))
  | @function keyword name opening closing brace last items parameters body hk hn ho hi hp hc hs
      hb hl ih =>
    obtain ⟨hpe, hbe⟩ := List.append_eq_nil_iff.1 he
    have hparameters : (Form.optional (.phrase .parameters)).Admits Derived parameters.tokens := by
      obtain ⟨rfl, rfl⟩ | hp := hp
      · exact .inl rfl
      · refine .inr (derives_phrase (admits_listOf hp hpe ?_ ?_))
        · intro p hmem
          rw [(hi p hmem).2]
          simp
        · intro p hmem _
          rw [(hi p hmem).2]
          exact admits_token (hi p hmem).1
    have hblock : (Form.phrase .block).Admits Derived _ := derived_of_admits
      (((admits_token hs).append (derived_declarations ih hbe)).append (admits_token hl)) rfl
    refine derives_phrase (.inl (.inl ?_))
    exact derived_of_admits ((((((admits_token hk).append (admits_token hn)).append
      (admits_token ho)).append hparameters).append (admits_token hc)).append hblock) (by simp)

end Lox.Syntax
