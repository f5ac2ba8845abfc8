import Lox.Proofs.Grammar.Production
import Lox.Proofs.Syntax.Reads

namespace Lox.Syntax

theorem Reads.of_primary {s : Span Expr} (h : Reads .primary s) : Reads .call s := by
  simpa using @Reads.call s [] h (by simp) (by simp)

theorem Reads.of_call {s : Span Expr} (h : Reads .call s) : Reads .unary s :=
  @Reads.unary [] s (by simp) h

theorem Reads.of_operand {c : Chain} {s : Span Expr} (h : Reads c.operand s) :
    Reads (.chain c) s := by
  simpa using @Reads.chain c s [] h (by simp) (by simp)

-- What stands alone stands for an expression of every level.
theorem Reads.disjunction_of_primary {s : Span Expr} (h : Reads .primary s) :
    Reads (.chain .disjunction) s :=
  .of_operand (c := .disjunction) (.of_operand (c := .conjunction) (.of_operand (c := .equality)
    (.of_operand (c := .comparison) (.of_operand (c := .term) (.of_operand (c := .factor)
      h.of_primary.of_call)))))

-- An `else` belongs to the nearest `if` before it. Where a statement may end with an `if` without
-- one, the `else` and what follows it go into the statement.
theorem ReadsStmt.absorb {s no : Span Stmt} {other : Token} {tail : Tail}
    (h : ReadsStmt .nested tail s) (he : other.kind = .elseKw)
    (hno : ReadsStmt .nested .dangling no) :
    ReadsStmt .nested .closed s ∨ ∃ all, ReadsStmt .nested .dangling all ∧
      all.tokens = s.tokens ++ other :: no.tokens ∧ all.errors = s.errors ++ no.errors := by
  generalize hslot : Slot.nested = slot at h
  induction h with
  | bare hs => exact .inl (.bare hs)
  | print hk hv hs => exact .inl (.print hk hv hs)
  | returnFrom hk hv hs => exact .inl (.returnFrom hk hv hs)
  | breakLoop hk hs => exact .inl (.breakLoop hk hs)
  | block ho hb hc => exact .inl (.block ho hb hc)
  | loop hk hc hb ih =>
    refine (ih rfl).imp (.loop hk hc) ?_
    rintro ⟨all, hall, htokens, herrors⟩
    exact ⟨_, .loop hk hc hall, by simp [htokens], by simp [herrors]⟩
  | forLoop hk ho hi hc hs hn hp hb ih =>
    refine (ih rfl).imp (.forLoop hk ho hi hc hs hn hp) ?_
    rintro ⟨all, hall, htokens, herrors⟩
    exact ⟨_, .forLoop hk ho hi hc hs hn hp hall, by simp [htokens], by simp [herrors]⟩
  | ifThen hk hc hy ih =>
    right
    obtain hyes | ⟨all, hall, htokens, herrors⟩ := ih rfl
    · exact ⟨_, .ifElse hk hc hyes he hno, by simp, by simp⟩
    · exact ⟨_, .ifThen hk hc hall, by simp [htokens], by simp [herrors]⟩
  | ifElse hk hc hy helse hn ih ih' =>
    refine (ih' rfl).imp (.ifElse hk hc hy helse) ?_
    rintro ⟨all, hall, htokens, herrors⟩
    exact ⟨_, .ifElse hk hc hy helse hall, by simp [htokens], by simp [herrors]⟩
  | weaken hs ih => exact .inl (hslot ▸ hs)
  | free hs | declared hk hd | function hk hn ho hi hp hc hs hb hl => cases hslot

end Lox.Syntax

namespace Lox.Grammar

open Syntax

-- The tokens stand for something without errors.
def Stands {α : Type} (P : Span α → Prop) (ts : List Token) : Prop :=
  ∃ s, P s ∧ s.tokens = ts ∧ s.errors = []

-- The tokens stand for declarations.
def StandForAll (ts : List Token) : Prop :=
  ∃ body, ReadsProgram body ts

-- What tokens have to stand for to be recognized as a phrase.
def Recognized : Phrase → List Token → Prop
  | .program => StandForAll
  | .declaration => Stands (ReadsStmt .free .dangling)
  | .funDecl => Stands (ReadsStmt .free .closed)
  | .varDecl => fun ts => ∃ keyword rest, ts = keyword :: rest ∧ keyword.kind = .varKw ∧
      Stands ReadsVariable rest
  | .exprStmt => Stands ReadsBare
  | .statement | .forStmt | .ifStmt | .printStmt | .returnStmt | .whileStmt | .breakStmt =>
    Stands (ReadsStmt .nested .dangling)
  | .block => fun ts => ∃ opening inner closing, ts = opening :: (inner ++ [closing]) ∧
      opening.kind = .leftBrace ∧ closing.kind = .rightBrace ∧ StandForAll inner
  | .expression | .assignment => Stands (Reads .assignment)
  | .logicOr => Stands (Reads (.chain .disjunction))
  | .logicAnd => Stands (Reads (.chain .conjunction))
  | .equality => Stands (Reads (.chain .equality))
  | .comparison => Stands (Reads (.chain .comparison))
  | .term => Stands (Reads (.chain .term))
  | .factor => Stands (Reads (.chain .factor))
  | .unary => Stands (Reads .unary)
  | .call => Stands (Reads .call)
  | .primary => Stands (Reads .primary)
  | .parameters => fun ts => ∃ items : List (Span Token),
      (∀ p ∈ items, p.tree.kind = .identifier ∧ p = ⟨[p.tree], p.tree, []⟩) ∧
        Stands (Listed .parameters 0 items) ts
  | .arguments => fun ts => ∃ items : List (Span Expr),
      (∀ a ∈ items, Reads .assignment a) ∧ Stands (Listed .arguments 0 items) ts

section

variable {α : Type} {what : ListItem} {item : Form Phrase} {P : Span α → Prop}

theorem excess_eq_nil {count : Nat} (h : count < listLimit) (ts : List Token) :
    excess what count ts = [] := by
  rw [excess, if_neg (Nat.not_le_of_lt h)]

-- Items within the limit stand for a list.
theorem stands_listed (hi : ∀ ts, item.Admits Recognized ts → Stands P ts) {count : Nat}
    {us : List Token} {parts : List (List Token)} (hus : item.Admits Recognized us)
    (hparts : ∀ vs ∈ parts, (Form.token .comma ++ item).Admits Recognized vs)
    (hcount : count + parts.length < listLimit) :
    ∃ items, (∀ s ∈ items, P s) ∧ Stands (Listed what count items) (us ++ parts.flatten) := by
  induction parts generalizing count us with
  | nil =>
    obtain ⟨s, hs, rfl, he⟩ := hi us hus
    have hless : count < listLimit := by simpa using hcount
    exact ⟨[s], by simpa using hs, _, .last s, by simp, by simp [excess_eq_nil hless, he]⟩
  | cons part parts ih =>
    obtain ⟨cs, vs, rfl, ⟨comma, rfl, hc⟩, hvs⟩ := hparts part (by simp)
    rw [List.length_cons] at hcount
    obtain ⟨s, hs, rfl, he⟩ := hi us hus
    obtain ⟨items, hitems, others, hl, htokens, herrors⟩ := @ih (count + 1) vs hvs
      (fun x hx => hparts x (by simp [hx])) (by omega)
    have hless : count < listLimit := by omega
    exact ⟨s :: items, by simpa using ⟨hs, hitems⟩, _, .next s hc hl, by simp [htokens],
      by simp [excess_eq_nil hless, he, herrors]⟩

theorem stands_listOf {ts : List Token} (h : (listOf item).Admits Recognized ts)
    (hi : ∀ us, item.Admits Recognized us → Stands P us) :
    ∃ items, (∀ s ∈ items, P s) ∧ Stands (Listed what 0 items) ts := by
  obtain ⟨us, vs, rfl, hus, parts, hlen, rfl, hparts⟩ := h
  have hcount : 0 + parts.length < listLimit := by
    simp only [listLimit] at hlen ⊢
    omega
  exact stands_listed hi hus hparts hcount

end

theorem stands_of_parts {parts : List (List Token)}
    (h : ∀ us ∈ parts, Stands (ReadsStmt .free .dangling) us) : StandForAll parts.flatten := by
  induction parts with
  | nil => exact ⟨[], rfl, rfl, by simp⟩
  | cons us parts ih =>
    obtain ⟨s, hs, rfl, he⟩ := h us (by simp)
    obtain ⟨body, hbody, herrors, hall⟩ := ih fun vs hv => h vs (by simp [hv])
    exact ⟨s :: body, by simp [hbody], by simp [he, herrors], by simpa using ⟨hs, hall⟩⟩

theorem stands_chain {c : Chain} {operators operand : Form Phrase} {ts : List Token}
    (h : (chainOf operand operators).Admits Recognized ts)
    (hoperand : ∀ us, operand.Admits Recognized us → Stands (Reads c.operand) us)
    (hoperators : ∀ us, operators.Admits Recognized us → ∃ t, us = [t] ∧ t.kind ∈ c.kinds) :
    Stands (Reads (.chain c)) ts := by
  obtain ⟨us, vs, rfl, hus, parts, rfl, hparts⟩ := h
  obtain ⟨first, hfirst, rfl, he⟩ := hoperand us hus
  have hlinks : ∃ links : List Link, parts.flatten = links.flatMap Link.tokens ∧
      (∀ l ∈ links, l.operator.kind ∈ c.kinds) ∧ (∀ l ∈ links, Reads c.operand l.operand) ∧
      links.flatMap (·.operand.errors) = [] := by
    induction parts with
    | nil => exact ⟨[], rfl, by simp, by simp, rfl⟩
    | cons part parts ih =>
      obtain ⟨os, vs, rfl, hos, hvs⟩ := hparts part (by simp)
      obtain ⟨t, rfl, hk⟩ := hoperators os hos
      obtain ⟨s, hs, rfl, hse⟩ := hoperand vs hvs
      obtain ⟨links, htokens, hks, hls, herrors⟩ := ih fun x hx => hparts x (by simp [hx])
      exact ⟨⟨t, s⟩ :: links, by simp [Link.tokens, htokens], by simpa using ⟨hk, hks⟩,
        by simpa using ⟨hs, hls⟩, by simp [hse, herrors]⟩
  obtain ⟨links, htokens, hks, hls, herrors⟩ := hlinks
  exact ⟨_, .chain hfirst hks hls, by simp [htokens], by simp [he, herrors]⟩

theorem stands_call {ts : List Token} (h : (production .call).Admits Recognized ts) :
    Stands (Reads .call) ts := by
  obtain ⟨us, vs, rfl, ⟨callee, hf, rfl, he⟩, parts, rfl, hparts⟩ := h
  have hcalls : ∃ calls : List Application, parts.flatten = calls.flatMap Application.tokens ∧
      (∀ c ∈ calls, c.Proper) ∧ (∀ c ∈ calls, ∀ a ∈ c.arguments, Reads .assignment a) ∧
      calls.flatMap (·.inner.errors) = [] := by
    induction parts with
    | nil => exact ⟨[], rfl, by simp, by simp, rfl⟩
    | cons part parts ih =>
      obtain ⟨_, _, rfl, ⟨_, vs, rfl, ⟨opening, rfl, ho⟩, harguments⟩, ⟨closing, rfl, hc⟩⟩ :=
        hparts part (by simp)
      have hinner : ∃ items, (∀ a ∈ items, Reads .assignment a) ∧
          Stands (InParens .arguments items) vs := by
        obtain rfl | ⟨items, hitems, list, hl, rfl, hle⟩ := harguments
        · exact ⟨[], by simp, _, .inl ⟨rfl, rfl⟩, rfl, rfl⟩
        · exact ⟨items, hitems, list, .inr hl, rfl, hle⟩
      obtain ⟨items, hitems, list, hl, rfl, hle⟩ := hinner
      obtain ⟨calls, htokens, hproper, hargs, herrors⟩ := ih fun x hx => hparts x (by simp [hx])
      exact ⟨⟨opening, items, list, closing⟩ :: calls, by simp [Application.tokens, htokens],
        by simpa using ⟨⟨ho, hl, hc⟩, hproper⟩, by simpa using ⟨hitems, hargs⟩,
        by simp [hle, herrors]⟩
  obtain ⟨calls, htokens, hproper, hargs, herrors⟩ := hcalls
  exact ⟨_, .call hf hproper hargs, by simp [htokens], by simp [he, herrors]⟩

theorem stands_unary {ts : List Token} (h : (production .unary).Admits Recognized ts) :
    Stands (Reads .unary) ts := by
  obtain ⟨us, vs, rfl, hus, s, hs, rfl, he⟩ | ⟨s, hs, rfl, he⟩ := h
  · have hoperator : ∃ t, us = [t] ∧ t.kind ∈ [.bang, .minus] := by
      obtain ⟨t, rfl, hk⟩ | ⟨t, rfl, hk⟩ := hus <;> exact ⟨t, rfl, by simp [hk]⟩
    obtain ⟨t, rfl, hk⟩ := hoperator
    cases hs with
    | @unary operators operand ho hr =>
      have hall : ∀ u ∈ t :: operators, u.kind ∈ [.bang, .minus] := List.forall_mem_cons.2 ⟨hk, ho⟩
      exact ⟨_, .unary hall hr, by simp, he⟩
  · exact ⟨s, hs.of_call, rfl, he⟩

theorem stands_primary {ts : List Token} (h : (production .primary).Admits Recognized ts) :
    Stands (Reads .primary) ts := by
  have hliteral : ∀ {kind : TokenKind} {us : List Token},
      kind ∈ [.number, .string, .trueKw, .falseKw, .nilKw] →
      (Form.token kind).Admits Recognized us → Stands (Reads .primary) us := by
    rintro kind us hkind ⟨t, rfl, rfl⟩
    have hsome : ∃ value, constant? t = some value := by
      simp only [List.mem_cons, List.not_mem_nil, or_false] at hkind
      obtain hk | hk | hk | hk | hk := hkind <;> simp [constant?, hk]
    obtain ⟨value, hv⟩ := hsome
    exact ⟨_, .literal hv, rfl, rfl⟩
  simp only [production, admits_or, or_assoc] at h
  obtain h | h | h | h | h | h | ⟨t, rfl, ht⟩ := h
  · exact hliteral (by simp) h
  · exact hliteral (by simp) h
  · exact hliteral (by simp) h
  · exact hliteral (by simp) h
  · exact hliteral (by simp) h
  · obtain ⟨_, _, rfl, ⟨_, _, rfl, ⟨opening, rfl, ho⟩, inner, hi, rfl, he⟩, closing, rfl, hc⟩ := h
    exact ⟨_, .grouping ho hc hi, by simp, he⟩
  · exact ⟨_, .name ht, rfl, rfl⟩

theorem stands_assignment {ts : List Token} (h : (production .assignment).Admits Recognized ts) :
    Stands (Reads .assignment) ts := by
  obtain ⟨_, _, rfl, ⟨_, _, rfl, ⟨name, rfl, hn⟩, equal, rfl, hequal⟩, value, hv, rfl, he⟩ |
    ⟨s, hs, rfl, he⟩ := h
  · have hname : Reads .primary ⟨[name], .variable name, []⟩ := .name hn
    exact ⟨_, .assign hname.disjunction_of_primary rfl hequal hv, by simp, by simp [he]⟩
  · exact ⟨s, .plain hs, rfl, he⟩

theorem readsOptional_of_admits {ts : List Token}
    (h : (Form.optional (.phrase .expression)).Admits Recognized ts) : Stands ReadsOptional ts := by
  obtain rfl | ⟨s, hs, rfl, he⟩ := h
  · exact ⟨_, .absent, rfl, rfl⟩
  · exact ⟨_, .present hs, rfl, he⟩

theorem stands_varDecl {ts : List Token} (h : (production .varDecl).Admits Recognized ts) :
    Recognized .varDecl ts := by
  obtain ⟨_, _, rfl, ⟨_, _, rfl, ⟨_, _, rfl, ⟨keyword, rfl, hk⟩, name, rfl, hn⟩, hvalue⟩,
    semicolon, rfl, hs⟩ := h
  obtain rfl | ⟨_, _, rfl, ⟨equal, rfl, hequal⟩, value, hv, rfl, he⟩ := hvalue
  · exact ⟨keyword, [name, semicolon], rfl, hk, _, .plain hn hs, rfl, rfl⟩
  · exact ⟨keyword, name :: equal :: (value.tokens ++ [semicolon]), by simp, hk, _,
      .initialized hn hequal hv hs, rfl, he⟩

theorem stands_funDecl {ts : List Token} (h : (production .funDecl).Admits Recognized ts) :
    Stands (ReadsStmt .free .closed) ts := by
  obtain ⟨_, _, rfl, ⟨_, _, rfl, ⟨_, _, rfl, ⟨_, _, rfl, ⟨_, _, rfl, ⟨keyword, rfl, hk⟩, name, rfl,
    hn⟩, opening, rfl, ho⟩, hparameters⟩, closing, rfl, hc⟩, brace, _, last, rfl, hs, hl, body, rfl,
    hbe, hb⟩ := h
  obtain rfl | ⟨items, hitems, parameters, hp, rfl, he⟩ := hparameters
  · have hnone : InParens .parameters ([] : List (Span Token)) ⟨[], [], []⟩ := .inl ⟨rfl, rfl⟩
    exact ⟨_, .function hk hn ho (by simp) hnone hc hs hb hl, by simp, by simpa using hbe⟩
  · exact ⟨_, .function hk hn ho hitems (.inr hp) hc hs hb hl, by simp, by simp [he, hbe]⟩

theorem readsInitializer_of_admits {ts : List Token}
    (h : (Form.phrase .varDecl ||| .phrase .exprStmt ||| .token .semicolon).Admits Recognized ts) :
    Stands ReadsInitializer ts := by
  obtain (⟨keyword, _, rfl, hk, d, hd, rfl, he⟩ | ⟨s, hs, rfl, he⟩) | ⟨t, rfl, ht⟩ := h
  · exact ⟨_, .declared hk hd, rfl, he⟩
  · exact ⟨_, .bare hs, rfl, he⟩
  · exact ⟨_, .absent ht, rfl, rfl⟩

theorem stands_forStmt {ts : List Token} (h : (production .forStmt).Admits Recognized ts) :
    Stands (ReadsStmt .nested .dangling) ts := by
  obtain ⟨_, _, rfl, ⟨_, _, rfl, ⟨_, _, rfl, ⟨_, _, rfl, ⟨_, _, rfl, ⟨_, _, rfl, ⟨_, _, rfl,
    ⟨keyword, rfl, hk⟩, opening, rfl, ho⟩, hinitializer⟩, hcondition⟩, semicolon, rfl, hs⟩,
    hincrement⟩, closing, rfl, hc⟩, body, hb, rfl, hbe⟩ := h
  obtain ⟨initializer, hi, rfl, hie⟩ := readsInitializer_of_admits hinitializer
  obtain ⟨condition, hcond, rfl, hce⟩ := readsOptional_of_admits hcondition
  obtain ⟨increment, hinc, rfl, hne⟩ := readsOptional_of_admits hincrement
  exact ⟨_, .forLoop hk ho hi hcond hs hinc hc hb, by simp, by simp [hie, hce, hne, hbe]⟩

theorem stands_ifStmt {ts : List Token} (h : (production .ifStmt).Admits Recognized ts) :
    Stands (ReadsStmt .nested .dangling) ts := by
  obtain ⟨_, _, rfl, ⟨_, _, rfl, ⟨_, _, rfl, ⟨_, _, rfl, ⟨_, _, rfl, ⟨keyword, rfl, hk⟩, opening,
    rfl, ho⟩, condition, hcond, rfl, hce⟩, closing, rfl, hc⟩, yes, hy, rfl, hye⟩, helse⟩ := h
  have hcondition : ReadsCondition _ := .mk ho hcond hc
  obtain rfl | ⟨_, _, rfl, ⟨other, rfl, hother⟩, no, hn, rfl, hne⟩ := helse
  · exact ⟨_, .ifThen hk hcondition hy, by simp, by simp [hce, hye]⟩
  · obtain hyes | ⟨all, hall, htokens, herrors⟩ := hy.absorb hother hn
    · exact ⟨_, .ifElse hk hcondition hyes hother hn, by simp, by simp [hce, hye, hne]⟩
    · exact ⟨_, .ifThen hk hcondition hall, by simp [htokens], by simp [hce, herrors, hye, hne]⟩

-- What a phrase is made of is recognized as that phrase.
theorem recognized_of_admits (name : Phrase) (ts : List Token)
    (h : (production name).Admits Recognized ts) : Recognized name ts := by
  cases name with
  | program =>
    obtain ⟨parts, rfl, hparts⟩ := h
    exact stands_of_parts hparts
  | declaration =>
    obtain (⟨s, hs, rfl, he⟩ | ⟨keyword, _, rfl, hk, d, hd, rfl, he⟩) | ⟨s, hs, rfl, he⟩ := h
    · exact ⟨s, hs.weaken, rfl, he⟩
    · exact ⟨_, (ReadsStmt.declared hk hd).weaken, rfl, he⟩
    · exact ⟨s, hs.free, rfl, he⟩
  | funDecl => exact stands_funDecl h
  | varDecl => exact stands_varDecl h
  | exprStmt =>
    obtain ⟨_, _, rfl, ⟨value, hv, rfl, he⟩, semicolon, rfl, hs⟩ := h
    exact ⟨_, .mk hv hs, rfl, he⟩
  | statement =>
    simp only [production, admits_or, or_assoc] at h
    obtain ⟨s, hs, rfl, he⟩ | h | h | h | h | h | h |
      ⟨opening, _, closing, rfl, ho, hc, body, rfl, he, hb⟩ := h
    · exact ⟨s, (ReadsStmt.bare hs).weaken, rfl, he⟩
    · exact h
    · exact h
    · exact h
    · exact h
    · exact h
    · exact h
    · exact ⟨_, (ReadsStmt.block ho hb hc).weaken, rfl, he⟩
  | forStmt => exact stands_forStmt h
  | ifStmt => exact stands_ifStmt h
  | printStmt =>
    obtain ⟨_, _, rfl, ⟨_, _, rfl, ⟨keyword, rfl, hk⟩, value, hv, rfl, he⟩, semicolon, rfl, hs⟩ := h
    exact ⟨_, (ReadsStmt.print hk hv hs).weaken, by simp, he⟩
  | returnStmt =>
    obtain ⟨_, _, rfl, ⟨_, _, rfl, ⟨keyword, rfl, hk⟩, hvalue⟩, semicolon, rfl, hs⟩ := h
    obtain ⟨value, hv, rfl, he⟩ := readsOptional_of_admits hvalue
    exact ⟨_, (ReadsStmt.returnFrom hk hv hs).weaken, by simp, he⟩
  | whileStmt =>
    obtain ⟨_, _, rfl, ⟨_, _, rfl, ⟨_, _, rfl, ⟨_, _, rfl, ⟨keyword, rfl, hk⟩, opening, rfl, ho⟩,
      condition, hcond, rfl, hce⟩, closing, rfl, hc⟩, body, hb, rfl, hbe⟩ := h
    exact ⟨_, .loop hk (.mk ho hcond hc) hb, by simp, by simp [hce, hbe]⟩
  | breakStmt =>
    obtain ⟨_, _, rfl, ⟨keyword, rfl, hk⟩, semicolon, rfl, hs⟩ := h
    exact ⟨_, (ReadsStmt.breakLoop hk hs).weaken, rfl, rfl⟩
  | block =>
    obtain ⟨_, _, rfl, ⟨_, _, rfl, ⟨opening, rfl, ho⟩, parts, rfl, hparts⟩, closing, rfl, hc⟩ := h
    exact ⟨opening, parts.flatten, closing, by simp, ho, hc, stands_of_parts hparts⟩
  | expression => exact h
  | assignment => exact stands_assignment h
  | logicOr =>
    refine stands_chain (c := .disjunction) h (fun _ h => h) ?_
    rintro ts ⟨t, rfl, hk⟩
    exact ⟨t, rfl, by simp [Chain.kinds, hk]⟩
  | logicAnd =>
    refine stands_chain (c := .conjunction) h (fun _ h => h) ?_
    rintro ts ⟨t, rfl, hk⟩
    exact ⟨t, rfl, by simp [Chain.kinds, hk]⟩
  | equality =>
    refine stands_chain (c := .equality) h (fun _ h => h) ?_
    rintro ts (⟨t, rfl, hk⟩ | ⟨t, rfl, hk⟩) <;> exact ⟨t, rfl, by simp [Chain.kinds, hk]⟩
  | comparison =>
    refine stands_chain (c := .comparison) h (fun _ h => h) ?_
    rintro ts (((⟨t, rfl, hk⟩ | ⟨t, rfl, hk⟩) | ⟨t, rfl, hk⟩) | ⟨t, rfl, hk⟩) <;>
      exact ⟨t, rfl, by simp [Chain.kinds, hk]⟩
  | term =>
    refine stands_chain (c := .term) h (fun _ h => h) ?_
    rintro ts (⟨t, rfl, hk⟩ | ⟨t, rfl, hk⟩) <;> exact ⟨t, rfl, by simp [Chain.kinds, hk]⟩
  | factor =>
    refine stands_chain (c := .factor) h (fun _ h => h) ?_
    rintro ts (⟨t, rfl, hk⟩ | ⟨t, rfl, hk⟩) <;> exact ⟨t, rfl, by simp [Chain.kinds, hk]⟩
  | unary => exact stands_unary h
  | call => exact stands_call h
  | primary => exact stands_primary h
  | parameters =>
    refine stands_listOf h ?_
    rintro ts ⟨t, rfl, hk⟩
    exact ⟨⟨[t], t, []⟩, ⟨hk, rfl⟩, rfl, rfl⟩
  | arguments => exact stands_listOf h fun _ h => h

-- Tokens whose kinds a phrase derives are recognized as that phrase.
theorem recognized_of_derives {name : Phrase} {ts : List Token}
    (h : Derives production (.phrase name) (ts.map Token.kind)) : Recognized name ts :=
  h.admits recognized_of_admits rfl

end Lox.Grammar
