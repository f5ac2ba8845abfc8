import Lox.Proofs.Syntax.Reads

namespace Lox

-- The operators that take both of their operands whatever these are.
def binaryKinds : List TokenKind :=
  [.bangEqual, .equalEqual, .greater, .greaterEqual, .less, .lessEqual, .minus, .plus, .slash,
    .star]

-- A token of one of the given kinds that has a property.
structure Token.Of (P : Token → Prop) (kinds : List TokenKind) (t : Token) : Prop where
  kind : t.kind ∈ kinds
  property : P t

-- What a token with a property stands for. Only the condition that a `for` loop lacks is true
-- without a token.
def Literal.MadeOf (P : Token → Prop) (value : Literal) : Prop :=
  value = .bool true ∨ ∃ t, P t ∧ Syntax.constant? t = some value

mutual

-- A tree of tokens that have a property and are of the kinds that the grammar asks for.
def Expr.MadeOf (P : Token → Prop) : Expr → Prop
  | .assign name value => name.Of P [.identifier] ∧ value.MadeOf P
  | .binary left operator right =>
    operator.Of P binaryKinds ∧ left.MadeOf P ∧ right.MadeOf P
  | .call callee paren arguments =>
    paren.Of P [.rightParen] ∧ callee.MadeOf P ∧ Expr.AllMadeOf P arguments
  | .grouping inner => inner.MadeOf P
  | .literal value => value.MadeOf P
  | .logical left operator right =>
    operator.Of P [.orKw, .andKw] ∧ left.MadeOf P ∧ right.MadeOf P
  | .unary operator operand => operator.Of P [.bang, .minus] ∧ operand.MadeOf P
  | .variable name => name.Of P [.identifier]

def Expr.AllMadeOf (P : Token → Prop) : List Expr → Prop
  | [] => True
  | e :: es => e.MadeOf P ∧ AllMadeOf P es

end

mutual

def Stmt.MadeOf (P : Token → Prop) : Stmt → Prop
  | .block body => Stmt.AllMadeOf P body
  | .breakLoop keyword => keyword.Of P [.breakKw]
  | .expression value => value.MadeOf P
  | .function name parameters body =>
    name.Of P [.identifier] ∧ (∀ p ∈ parameters, p.Of P [.identifier]) ∧ Stmt.AllMadeOf P body
  | .branch condition yes none => condition.MadeOf P ∧ yes.MadeOf P
  | .branch condition yes (some no) => condition.MadeOf P ∧ yes.MadeOf P ∧ no.MadeOf P
  | .print value => value.MadeOf P
  | .returnFrom keyword none => keyword.Of P [.returnKw]
  | .returnFrom keyword (some value) => keyword.Of P [.returnKw] ∧ value.MadeOf P
  | .declare name none => name.Of P [.identifier]
  | .declare name (some value) => name.Of P [.identifier] ∧ value.MadeOf P
  | .loop condition body => condition.MadeOf P ∧ body.MadeOf P
  | .jump _ => False

def Stmt.AllMadeOf (P : Token → Prop) : List Stmt → Prop
  | [] => True
  | s :: ss => s.MadeOf P ∧ AllMadeOf P ss

end

section

variable {P : Token → Prop}

theorem Token.Of.kind_eq {kind : TokenKind} {t : Token} (h : t.Of P [kind]) : t.kind = kind :=
  List.mem_singleton.1 h.kind

theorem Token.Of.of_kind {kind : TokenKind} {t : Token} (hk : t.kind = kind) (hp : P t) :
    t.Of P [kind] :=
  ⟨List.mem_singleton.2 hk, hp⟩

theorem Expr.allMadeOf_iff {es : List Expr} :
    Expr.AllMadeOf P es ↔ ∀ e ∈ es, e.MadeOf P := by
  induction es with
  | nil => simp [Expr.AllMadeOf]
  | cons e es ih => simp [Expr.AllMadeOf, ih]

theorem Stmt.allMadeOf_iff {ss : List Stmt} :
    Stmt.AllMadeOf P ss ↔ ∀ s ∈ ss, s.MadeOf P := by
  induction ss with
  | nil => simp [Stmt.AllMadeOf]
  | cons s ss ih => simp [Stmt.AllMadeOf, ih]

end

namespace Syntax

variable {α : Type} {P : Token → Prop}

theorem Listed.tree_eq {what : ListItem} {count : Nat} {items : List (Span α)}
    {list : Span (List α)} (h : Listed what count items list) :
    list.tree = items.map Span.tree := by
  induction h with
  | last item => rfl
  | next item hc hs ih => simp [ih]

theorem Listed.mem_tokens {what : ListItem} {count : Nat} {items : List (Span α)}
    {list : Span (List α)} (h : Listed what count items list) {item : Span α} (hi : item ∈ items)
    {t : Token} (ht : t ∈ item.tokens) : t ∈ list.tokens := by
  induction h with
  | last other =>
    obtain rfl := List.mem_singleton.1 hi
    exact ht
  | next other hc hs ih =>
    obtain rfl | hi := List.mem_cons.1 hi
    · simp [ht]
    · simp [ih hi]

theorem InParens.tree_eq {what : ListItem} {items : List (Span α)} {list : Span (List α)}
    (h : InParens what items list) : list.tree = items.map Span.tree := by
  obtain ⟨rfl, rfl⟩ | h := h
  · rfl
  · exact h.tree_eq

theorem InParens.mem_tokens {what : ListItem} {items : List (Span α)} {list : Span (List α)}
    (h : InParens what items list) {item : Span α} (hi : item ∈ items) {t : Token}
    (ht : t ∈ item.tokens) : t ∈ list.tokens := by
  obtain ⟨rfl, rfl⟩ | h := h
  · simp at hi
  · exact h.mem_tokens hi ht

theorem madeOf_calls {callee : Expr} {calls : List Application} (hf : callee.MadeOf P)
    (hc : ∀ c ∈ calls, c.closing.Of P [.rightParen] ∧ Expr.AllMadeOf P c.inner.tree) :
    (calls.foldl Application.node callee).MadeOf P := by
  induction calls generalizing callee with
  | nil => exact hf
  | cons c calls ih =>
    obtain ⟨hfirst, hrest⟩ := List.forall_mem_cons.1 hc
    exact ih ⟨hfirst.1, hf, hfirst.2⟩ hrest

theorem madeOf_operators {operators : List Token} {operand : Expr}
    (ho : ∀ t ∈ operators, t.Of P [.bang, .minus]) (he : operand.MadeOf P) :
    (operators.foldr Expr.unary operand).MadeOf P := by
  induction operators with
  | nil => exact he
  | cons t ts ih =>
    obtain ⟨ht, hrest⟩ := List.forall_mem_cons.1 ho
    exact ⟨ht, ih hrest⟩

theorem madeOf_node {c : Chain} {left right : Expr} {operator : Token}
    (ho : operator.Of P c.kinds) (hl : left.MadeOf P) (hr : right.MadeOf P) :
    (c.node left operator right).MadeOf P := by
  obtain ⟨hk, hp⟩ := ho
  cases c with
  | disjunction | conjunction =>
    exact ⟨⟨by revert hk; cases operator.kind <;> decide, hp⟩, hl, hr⟩
  | equality | comparison | term | factor =>
    exact ⟨⟨by revert hk; cases operator.kind <;> decide, hp⟩, hl, hr⟩

theorem madeOf_links {c : Chain} {first : Expr} {links : List Link} (hf : first.MadeOf P)
    (hl : ∀ l ∈ links, l.operator.Of P c.kinds ∧ l.operand.tree.MadeOf P) :
    (links.foldl (fun e l => c.node e l.operator l.operand.tree) first).MadeOf P := by
  induction links generalizing first with
  | nil => exact hf
  | cons l links ih =>
    obtain ⟨⟨ho, hr⟩, hrest⟩ := List.forall_mem_cons.1 hl
    exact ih (madeOf_node ho hf hr) hrest

-- Expressions are made of the tokens that they are read from.
theorem Reads.madeOf {level : Level} {s : Span Expr} (h : Reads level s)
    (ht : ∀ t ∈ s.tokens, P t) : s.tree.MadeOf P := by
  induction h with
  | literal hv => exact .inr ⟨_, ht _ (by simp), hv⟩
  | name hk => exact .of_kind hk (ht _ (by simp))
  | grouping _ _ _ ih => exact ih fun t hmem => ht t (by simp [hmem])
  | @call callee calls hf hc ha ih iha =>
    refine madeOf_calls (ih fun t hmem => ht t (by simp [hmem])) fun c hmem => ?_
    have hinner : ∀ t ∈ c.tokens, P t := by
      intro t htc
      refine ht t ?_
      simp only [List.mem_append, List.mem_flatMap]
      exact .inr ⟨c, hmem, htc⟩
    refine ⟨.of_kind (hc c hmem).closing (hinner c.closing (by simp [Application.tokens])), ?_⟩
    rw [(hc c hmem).inner.tree_eq, Expr.allMadeOf_iff, List.forall_mem_map]
    intro a hamem
    refine iha c hmem a hamem fun t hta => hinner t ?_
    have hlist := (hc c hmem).inner.mem_tokens hamem hta
    simp [Application.tokens, hlist]
  | unary ho _ ih =>
    exact madeOf_operators (fun t hmem => ⟨ho t hmem, ht t (by simp [hmem])⟩)
      (ih fun t hmem => ht t (by simp [hmem]))
  | @chain c first links hf ho hl ih ihl =>
    refine madeOf_links (ih fun t hmem => ht t (by simp [hmem])) fun l hmem => ?_
    have hinner : ∀ t ∈ l.tokens, P t := by
      intro t htl
      refine ht t ?_
      simp only [List.mem_append, List.mem_flatMap]
      exact .inr ⟨l, hmem, htl⟩
    exact ⟨⟨ho l hmem, hinner l.operator (by simp [Link.tokens])⟩,
      ihl l hmem fun t hto => hinner t (by simp [Link.tokens, hto])⟩
  | plain _ ih => exact ih ht
  | @assign target value name equal htarget hn he hv ih ihv =>
    have htree := ih fun t hmem => ht t (by simp [hmem])
    rw [hn] at htree
    exact ⟨htree, ihv fun t hmem => ht t (by simp [hmem])⟩
  | misassign _ _ _ _ ih _ => exact ih fun t hmem => ht t (by simp [hmem])

theorem ReadsVariable.madeOf {s : Span Stmt} (h : ReadsVariable s) (ht : ∀ t ∈ s.tokens, P t) :
    s.tree.MadeOf P := by
  cases h with
  | plain hn _ => exact .of_kind hn (ht _ (by simp))
  | initialized hn _ hv _ =>
    exact ⟨.of_kind hn (ht _ (by simp)), hv.madeOf fun t hmem => ht t (by simp [hmem])⟩

theorem ReadsBare.madeOf {s : Span Stmt} (h : ReadsBare s) (ht : ∀ t ∈ s.tokens, P t) :
    s.tree.MadeOf P := by
  cases h with
  | mk hv _ => exact hv.madeOf fun t hmem => ht t (by simp [hmem])

theorem ReadsCondition.madeOf {s : Span Expr} (h : ReadsCondition s) (ht : ∀ t ∈ s.tokens, P t) :
    s.tree.MadeOf P := by
  cases h with
  | mk _ hi _ => exact hi.madeOf fun t hmem => ht t (by simp [hmem])

theorem ReadsOptional.madeOf {s : Span (Option Expr)} (h : ReadsOptional s)
    (ht : ∀ t ∈ s.tokens, P t) : ∀ e ∈ s.tree, e.MadeOf P := by
  cases h with
  | absent => simp
  | present hs => simpa using hs.madeOf ht

theorem ReadsInitializer.madeOf {s : Span (Option Stmt)} (h : ReadsInitializer s)
    (ht : ∀ t ∈ s.tokens, P t) : ∀ i ∈ s.tree, i.MadeOf P := by
  cases h with
  | absent _ => simp
  | declared _ hd => simpa using hd.madeOf fun t hmem => ht t (by simp [hmem])
  | bare hs => simpa using hs.madeOf ht

-- A `for` loop is made of nothing that its parts are not, but for a condition that is missing.
theorem madeOf_forLoop {initializer : Option Stmt} {condition increment : Option Expr} {body : Stmt}
    (hi : ∀ s ∈ initializer, s.MadeOf P) (hc : ∀ e ∈ condition, e.MadeOf P)
    (hn : ∀ e ∈ increment, e.MadeOf P) (hb : body.MadeOf P) :
    (forLoop initializer condition increment body).MadeOf P := by
  have hcondition : (condition.getD (.literal (.bool true))).MadeOf P := by
    cases condition with
    | none => exact .inl rfl
    | some e => exact hc e rfl
  have hloop : ∀ round : Stmt, round.MadeOf P →
      (forLoop initializer condition none round).MadeOf P := by
    intro round hround
    cases initializer with
    | none => exact ⟨hcondition, hround⟩
    | some s => exact ⟨hi s rfl, ⟨hcondition, hround⟩, trivial⟩
  cases increment with
  | none => exact hloop body hb
  | some e => exact hloop _ ⟨hb, hn e rfl, trivial⟩

theorem ReadsStmt.madeOf {slot : Slot} {tail : Tail} {s : Span Stmt} (h : ReadsStmt slot tail s)
    (ht : ∀ t ∈ s.tokens, P t) : s.tree.MadeOf P := by
  have hall : ∀ {body : List (Span Stmt)} {ts : List Token}, (∀ t ∈ ts, P t) →
      (∀ s ∈ body, ∀ t ∈ s.tokens, t ∈ ts) →
      (∀ s ∈ body, (∀ t ∈ s.tokens, P t) → s.tree.MadeOf P) →
      Stmt.AllMadeOf P (body.map Span.tree) := by
    intro body ts hts hsub ih
    rw [Stmt.allMadeOf_iff, List.forall_mem_map]
    exact fun s hs => ih s hs fun t hmem => hts t (hsub s hs t hmem)
  induction h with
  | bare hs => exact hs.madeOf ht
  | print _ hv _ => exact hv.madeOf fun t hmem => ht t (by simp [hmem])
  | @returnFrom keyword semicolon value hk hv _ =>
    have hkeyword : keyword.Of P [.returnKw] := .of_kind hk (ht keyword (by simp))
    have hvalue := hv.madeOf fun t hmem => ht t (by simp [hmem])
    cases hvalue' : value.tree with
    | none => exact hkeyword
    | some e => exact ⟨hkeyword, hvalue e hvalue'⟩
  | breakLoop hk _ => exact .of_kind hk (ht _ (by simp))
  | block _ _ _ ih =>
    refine hall ht (fun s hs t hmem => ?_) ih
    simp only [List.mem_cons, List.mem_append, List.mem_flatMap]
    exact .inr (.inl ⟨s, hs, hmem⟩)
  | loop _ hc _ ih =>
    exact ⟨hc.madeOf fun t hmem => ht t (by simp [hmem]), ih fun t hmem => ht t (by simp [hmem])⟩
  | forLoop _ _ hi hc _ hn _ _ ih =>
    exact madeOf_forLoop (hi.madeOf fun t hmem => ht t (by simp [hmem]))
      (hc.madeOf fun t hmem => ht t (by simp [hmem]))
      (hn.madeOf fun t hmem => ht t (by simp [hmem])) (ih fun t hmem => ht t (by simp [hmem]))
  | ifThen _ hc _ ih =>
    exact ⟨hc.madeOf fun t hmem => ht t (by simp [hmem]), ih fun t hmem => ht t (by simp [hmem])⟩
  | ifElse _ hc _ _ _ ih ih' =>
    exact ⟨hc.madeOf fun t hmem => ht t (by simp [hmem]), ih fun t hmem => ht t (by simp [hmem]),
      ih' fun t hmem => ht t (by simp [hmem])⟩
  | weaken _ ih => exact ih ht
  | free _ ih => exact ih ht
  | declared _ hd => exact hd.madeOf fun t hmem => ht t (by simp [hmem])
  | @function keyword name opening closing brace last items parameters body _ hn _ hi hp _ _ _ _ ih =>
    refine ⟨.of_kind hn (ht name (by simp)), ?_, hall ht (fun s hs t hmem => ?_) ih⟩
    · rw [hp.tree_eq, List.forall_mem_map]
      intro p hmem
      refine .of_kind (hi p hmem).1 (ht p.tree ?_)
      have htoken : p.tree ∈ p.tokens := by
        rw [(hi p hmem).2]
        exact List.mem_singleton_self _
      simp [hp.mem_tokens hmem htoken]
    · simp only [List.mem_cons, List.mem_append, List.mem_flatMap]
      exact .inr (.inr (.inr (.inr (.inr (.inr (.inl ⟨s, hs, hmem⟩))))))

theorem ReadsProgram.madeOf {body : List (Span Stmt)} {tokens : List Token}
    (h : ReadsProgram body tokens) (ht : ∀ t ∈ tokens, P t) :
    Stmt.AllMadeOf P (body.map Span.tree) := by
  rw [Stmt.allMadeOf_iff, List.forall_mem_map]
  refine fun s hs => (h.declarations s hs).madeOf fun t hmem => ht t ?_
  rw [h.tokens]
  exact List.mem_flatMap.2 ⟨s, hs, hmem⟩

end Syntax

end Lox
