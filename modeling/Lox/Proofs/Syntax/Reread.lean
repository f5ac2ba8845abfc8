import Lox.Proofs.Syntax.Written

namespace Lox

-- Trees with the tokens that they are written with.
def Expr.span (e : Expr) : Syntax.Span Expr :=
  ⟨e.written, e, []⟩

def Stmt.span (s : Stmt) : Syntax.Span Stmt :=
  ⟨s.written, s, []⟩

theorem constant?_written {literal : Literal} (h : literal.Textual) :
    ∃ t, literal.written = [t] ∧ Syntax.constant? t = some literal := by
  cases literal with
  | nil => exact ⟨_, rfl, rfl⟩
  | bool value => cases value <;> exact ⟨_, rfl, rfl⟩
  | number value => exact ⟨_, rfl, rfl⟩
  | string value => exact ⟨_, rfl, rfl⟩
  | primitive value => exact absurd h not_false
  | undefined value => exact absurd h not_false

namespace Syntax

variable {α : Type}

-- What follows a callee is written after it, call by call.
theorem written_calls (callee : Expr) (calls : List Application) :
    (calls.foldl Application.node callee).written = callee.written ++ calls.flatMap fun a =>
      .fixed .leftParen :: (commaSeparated (a.inner.tree.map Expr.written) ++ [a.closing]) := by
  induction calls generalizing callee with
  | nil => simp
  | cons a calls ih =>
    simp [ih, Application.node, Expr.written, Expr.eachWritten_eq_map]

theorem written_operators (operators : List Token) (operand : Expr) :
    (operators.foldr Expr.unary operand).written = operators ++ operand.written := by
  induction operators with
  | nil => rfl
  | cons t ts ih => simp [Expr.written, ih]

theorem written_node (c : Chain) (left : Expr) (operator : Token) (right : Expr) :
    (c.node left operator right).written = left.written ++ operator :: right.written := by
  cases c <;> rfl

-- Operands and operators are written in order, although the tree leans to the left.
theorem written_links (c : Chain) (first : Expr) (links : List Link) :
    (links.foldl (fun e l => c.node e l.operator l.operand.tree) first).written =
      first.written ++ links.flatMap fun l => l.operator :: l.operand.tree.written := by
  induction links generalizing first with
  | nil => simp
  | cons l links ih => simp [ih, written_node]

-- A list that is not too long is read again from its items with commas between them.
theorem Listed.reread {what : ListItem} {count : Nat} {items : List (Span α)}
    {list : Span (List α)} (h : Listed what count items list) (he : list.errors = [])
    (hne : ∀ s ∈ items, s.tokens ≠ []) (write : α → List Token) :
    Listed what count (items.map fun s => ⟨write s.tree, s.tree, []⟩)
      ⟨commaSeparated ((items.map Span.tree).map write), list.tree, []⟩ := by
  have hroom : ∀ {count : Nat} {s : Span α}, s.tokens ≠ [] → excess what count s.tokens = [] →
      excess what count (write s.tree) = [] := by
    intro count s hs hx
    obtain ⟨t, ts, hts⟩ := List.exists_cons_of_ne_nil hs
    have hcount : ¬ listLimit ≤ count := by
      intro hge
      simp [excess, hge, hts] at hx
    simp [excess, hcount]
  induction h with
  | @last count s =>
    obtain ⟨hx, -⟩ := List.append_eq_nil_iff.1 he
    have hlast : Listed what count [⟨write s.tree, s.tree, []⟩] _ := .last _
    simpa [commaSeparated, hroom (hne s (by simp)) hx] using hlast
  | @next count items others s comma hc hs ih =>
    obtain ⟨hfirst, hothers⟩ := List.append_eq_nil_iff.1 he
    obtain ⟨hx, -⟩ := List.append_eq_nil_iff.1 hfirst
    have hrest := ih hothers fun s hs => hne s (by simp [hs])
    have hall := Listed.next ⟨write s.tree, s.tree, []⟩ (Token.kind_fixed .comma) hrest
    obtain ⟨t, ts, rfl⟩ : ∃ t ts, items = t :: ts := by
      cases hs <;> exact ⟨_, _, rfl⟩
    simpa [commaSeparated, hroom (hne s (by simp)) hx] using hall

theorem Listed.clean {what : ListItem} {count : Nat} {items : List (Span α)}
    {list : Span (List α)} (h : Listed what count items list) (he : list.errors = []) :
    ∀ s ∈ items, s.errors = [] := by
  induction h with
  | last s => simpa using (List.append_eq_nil_iff.1 he).2
  | next s hc hs ih =>
    obtain ⟨hfirst, hothers⟩ := List.append_eq_nil_iff.1 he
    exact List.forall_mem_cons.2 ⟨(List.append_eq_nil_iff.1 hfirst).2, ih hothers⟩

theorem InParens.clean {what : ListItem} {items : List (Span α)} {list : Span (List α)}
    (h : InParens what items list) (he : list.errors = []) : ∀ s ∈ items, s.errors = [] := by
  obtain ⟨rfl, rfl⟩ | h := h
  · simp
  · exact h.clean he

theorem InParens.reread {what : ListItem} {items : List (Span α)} {list : Span (List α)}
    (h : InParens what items list) (he : list.errors = []) (hne : ∀ s ∈ items, s.tokens ≠ [])
    (write : α → List Token) :
    InParens what (items.map fun s => ⟨write s.tree, s.tree, []⟩)
      ⟨commaSeparated (list.tree.map write), list.tree, []⟩ := by
  obtain ⟨rfl, rfl⟩ | h := h
  · exact .inl ⟨rfl, rfl⟩
  · rw [h.tree_eq]
    refine .inr ?_
    simpa [h.tree_eq] using h.reread he hne write

-- An expression that was read without errors is read again, on the same level, from the tokens
-- that its tree is written with.
theorem Reads.reread {level : Level} {s : Span Expr} (h : Reads level s) (he : s.errors = [])
    (ht : ∀ t ∈ s.tokens, t.Textual) : Reads level s.tree.span := by
  induction h with
  | @literal t value hv =>
    obtain ⟨u, hu, hconstant⟩ := constant?_written (textual_of_constant? hv (ht t (by simp)))
    rw [Expr.span, Expr.written, hu]
    exact .literal hconstant
  | name hk => exact .name hk
  | grouping ho hc hi ih =>
    exact .grouping (Token.kind_fixed .leftParen) (Token.kind_fixed .rightParen)
      (ih he fun t hmem => ht t (by simp [hmem]))
  | @call callee calls hf hc ha ih iha =>
    obtain ⟨hcallee, hcalls⟩ := List.append_eq_nil_iff.1 he
    rw [List.flatMap_eq_nil_iff] at hcalls
    have hfirst := ih hcallee fun t hmem => ht t (by simp [hmem])
    have harguments : ∀ a ∈ calls, ∀ e ∈ a.arguments, Reads .assignment e.tree.span := by
      intro a hmem e he'
      have hproper := hc a hmem
      refine iha a hmem e he' (hproper.inner.clean (hcalls a hmem) e he') fun t hte => ht t ?_
      have hlist := hproper.inner.mem_tokens he' hte
      exact List.mem_append_right _
        (List.mem_flatMap.2 ⟨a, hmem, by simp [Application.tokens, hlist]⟩)
    let again (a : Application) : Application :=
      ⟨.fixed .leftParen, a.arguments.map fun e => e.tree.span,
        ⟨commaSeparated (a.inner.tree.map Expr.written), a.inner.tree, []⟩, a.closing⟩
    have hproper : ∀ a ∈ calls.map again, a.Proper := by
      refine List.forall_mem_map.2 fun a hmem => ⟨rfl, ?_, (hc a hmem).closing⟩
      exact (hc a hmem).inner.reread (hcalls a hmem) (fun e he' => (ha a hmem e he').ne_nil) _
    have hall := Reads.call hfirst hproper
      (List.forall_mem_map.2 fun a hmem => List.forall_mem_map.2 (harguments a hmem))
    have hclean : (calls.map again).flatMap (·.inner.errors) = [] :=
      List.flatMap_eq_nil_iff.2 (List.forall_mem_map.2 fun _ _ => rfl)
    have hnode (e : Expr) (a : Application) : Application.node e (again a) = a.node e := rfl
    have htokens (a : Application) : (again a).tokens = .fixed .leftParen ::
        (commaSeparated (a.inner.tree.map Expr.written) ++ [a.closing]) := rfl
    rw [hclean] at hall
    simpa [Expr.span, written_calls, hnode, htokens, List.flatMap_map, List.foldl_map] using hall
  | @unary operators operand ho hr ih =>
    have hoperand := ih he fun t hmem => ht t (by simp [hmem])
    rw [Expr.span, written_operators]
    exact .unary ho hoperand
  | @chain c first links hf ho hl ih ihl =>
    obtain ⟨hfirst, hlinks⟩ := List.append_eq_nil_iff.1 he
    rw [List.flatMap_eq_nil_iff] at hlinks
    have hoperands : ∀ l ∈ links, Reads c.operand l.operand.tree.span := by
      intro l hmem
      refine ihl l hmem (hlinks l hmem) fun t htl => ht t ?_
      exact List.mem_append_right _ (List.mem_flatMap.2 ⟨l, hmem, by simp [Link.tokens, htl]⟩)
    let again (l : Link) : Link := ⟨l.operator, l.operand.tree.span⟩
    have hkinds : ∀ l ∈ links.map again, l.operator.kind ∈ c.kinds := List.forall_mem_map.2 ho
    have hall := Reads.chain (ih hfirst fun t hmem => ht t (by simp [hmem])) hkinds
      (List.forall_mem_map.2 hoperands)
    have hclean : (links.map again).flatMap (·.operand.errors) = [] :=
      List.flatMap_eq_nil_iff.2 (List.forall_mem_map.2 fun _ _ => rfl)
    have hnode (e : Expr) (l : Link) : c.node e (again l).operator (again l).operand.tree =
        c.node e l.operator l.operand.tree := rfl
    have htokens (l : Link) : (again l).tokens = l.operator :: l.operand.tree.written := rfl
    rw [hclean] at hall
    simpa [Expr.span, written_links, hnode, htokens, List.flatMap_map, List.foldl_map] using hall
  | plain hs ih => exact .plain (ih he ht)
  | @assign target value name equal htarget hn hequal hv ih ihv =>
    obtain ⟨hte, hve⟩ := List.append_eq_nil_iff.1 he
    have htarget' := ih hte fun t hmem => ht t (by simp [hmem])
    rw [hn] at htarget'
    exact .assign htarget' rfl (Token.kind_fixed .equal)
      (ihv hve fun t hmem => ht t (by simp [hmem]))
  | misassign ht hn hequal hv ih ihv => simp at he

end Syntax

end Lox
