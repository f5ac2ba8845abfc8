import Lox.Proofs.Syntax.Sound

namespace Lox.Syntax

open Rule

-- The tokens that would continue a chain of operands.
def Chain.extenders : Chain → List TokenKind
  | .factor => [.slash, .star, .leftParen]
  | .term => [.minus, .plus, .slash, .star, .leftParen]
  | .comparison => [.greater, .greaterEqual, .less, .lessEqual, .minus, .plus, .slash, .star,
      .leftParen]
  | .equality => [.bangEqual, .equalEqual, .greater, .greaterEqual, .less, .lessEqual, .minus,
      .plus, .slash, .star, .leftParen]
  | .conjunction => [.andKw, .bangEqual, .equalEqual, .greater, .greaterEqual, .less, .lessEqual,
      .minus, .plus, .slash, .star, .leftParen]
  | .disjunction => [.orKw, .andKw, .bangEqual, .equalEqual, .greater, .greaterEqual, .less,
      .lessEqual, .minus, .plus, .slash, .star, .leftParen]

-- The tokens that would continue an expression of a level.
def Level.extenders : Level → List TokenKind
  | .primary => []
  | .call | .unary => [.leftParen]
  | .chain c => c.extenders
  | .assignment => .equal :: Chain.disjunction.extenders

theorem extenders_chain (c : Chain) : c.extenders = c.kinds ++ c.operand.extenders := by
  cases c <;> rfl

-- The operators of a level are not those of a tighter one, nor parentheses.
theorem notMem_extenders_operand {c : Chain} {kind : TokenKind} (h : kind ∈ c.kinds) :
    kind ∉ c.operand.extenders := by
  revert h
  cases c <;> revert kind <;> decide

theorem Rule.Free.of_append_left {first second : List TokenKind} {tokens : List Token}
    (h : Free (first ++ second) tokens) : Free first tokens :=
  fun t ht hk => h t ht (List.mem_append_left _ hk)

theorem Rule.Free.of_append_right {first second : List TokenKind} {tokens : List Token}
    (h : Free (first ++ second) tokens) : Free second tokens :=
  fun t ht hk => h t ht (List.mem_append_right _ hk)

theorem Rule.Free.tail {kind : TokenKind} {kinds : List TokenKind} {tokens : List Token}
    (h : Free (kind :: kinds) tokens) : Free kinds tokens :=
  fun t ht hk => h t ht (List.mem_cons_of_mem _ hk)

theorem Rule.Free.head {kind : TokenKind} {kinds : List TokenKind} {tokens : List Token}
    (h : Free (kind :: kinds) tokens) : Free [kind] tokens :=
  fun t ht hk => h t ht (List.mem_singleton.1 hk ▸ List.mem_cons_self)

-- Whatever stands for a value is read as that value, in front of anything that does not continue
-- it. The bound on the number of tokens is what rules that repeat need.
def Rule.Complete {α : Type} (r : Rule α) (bound : Nat) (P : Span α → Prop)
    (extenders : List TokenKind) : Prop :=
  ∀ stop s rest, (s.tokens ++ rest).length ≤ bound → P s → Free extenders rest →
    r stop (s.tokens ++ rest) = ⟨some s.tree, rest, s.errors⟩

section

variable {α : Type} {bound : Nat} (stop : Token) (rounds : Nat) (rest : List Token)

theorem complete_items {item : Rule α} {P : Span α → Prop} {extenders : List TokenKind}
    (hi : item.Complete bound P extenders) (hne : ∀ s, P s → s.tokens ≠ [])
    (hcomma : .comma ∉ extenders) {what : ListItem} {count : Nat} {spans : List (Span α)}
    {list : Span (List α)} (hs : ∀ s ∈ spans, P s) (hl : Listed what count spans list)
    (hbound : (list.tokens ++ rest).length ≤ bound)
    (hrounds : (list.tokens ++ rest).length < rounds) (hrest : Free (.comma :: extenders) rest) :
    items item what rounds count stop (list.tokens ++ rest) =
      ⟨some list.tree, rest, list.errors⟩ := by
  induction hl generalizing rounds with
  | @last count s =>
    obtain ⟨rounds, rfl⟩ : ∃ n, rounds = n + 1 := ⟨rounds - 1, by omega⟩
    have hp := hs s (by simp)
    have hitem := hi stop s rest hbound hp hrest.tail
    rw [items_succ, run_bind (remark_append (hne s hp)), run_bind hitem,
      run_bind (take?_free hrest.head)]
    simp
  | @next count items others s comma hc hothers ih =>
    obtain ⟨rounds, rfl⟩ : ∃ n, rounds = n + 1 := ⟨rounds - 1, by omega⟩
    have hp := hs s (by simp)
    have htokens : (s.tokens ++ comma :: others.tokens) ++ rest =
        s.tokens ++ comma :: (others.tokens ++ rest) := by simp
    dsimp only at hbound hrounds ⊢
    rw [htokens] at hbound hrounds ⊢
    have hitem := hi stop s _ hbound hp (free_cons.2 (hc ▸ hcomma))
    simp only [List.length_append, List.length_cons] at hbound hrounds ih
    have hothers := ih rounds (fun x hx => hs x (by simp [hx])) (by omega) (by omega)
    rw [items_succ, run_bind (remark_append (hne s hp)), run_bind hitem,
      run_bind (take?_cons (by simp [hc]))]
    dsimp only
    rw [run_bind hothers]
    simp

theorem complete_commaList {item : Rule α} {P : Span α → Prop} {extenders : List TokenKind}
    (hi : item.Complete bound P extenders)
    (hhead : ∀ s, P s → ∃ t ts, s.tokens = t :: ts ∧ t.kind ≠ .rightParen)
    (hcomma : .comma ∉ extenders) (hparen : .rightParen ∉ extenders) {what : ListItem}
    {spans : List (Span α)} {list : Span (List α)} {closing : Token} (hs : ∀ s ∈ spans, P s)
    (hl : InParens what spans list) (hc : closing.kind = .rightParen)
    (hbound : (list.tokens ++ closing :: rest).length ≤ bound)
    (hrounds : (list.tokens ++ closing :: rest).length ≤ rounds) :
    commaList item what rounds stop (list.tokens ++ closing :: rest) =
      ⟨some list.tree, closing :: rest, list.errors⟩ := by
  rw [commaList, run_bind (peek_eq_some.2 ⟨rfl, rfl, rfl⟩)]
  obtain ⟨rfl, rfl⟩ | hl := hl
  · simp [hc]
  · have hfirst : ∃ t ts, list.tokens = t :: ts ∧ t.kind ≠ .rightParen := by
      cases hl with
      | last s => exact hhead s (hs s (by simp))
      | next s =>
        obtain ⟨t, ts, ht, hk⟩ := hhead s (hs s (by simp))
        exact ⟨t, _, by rw [ht]; rfl, hk⟩
    obtain ⟨t, ts, ht, hk⟩ := hfirst
    have hne : ∀ s, P s → s.tokens ≠ [] := by
      intro s h
      obtain ⟨t, ts, ht, -⟩ := hhead s h
      simp [ht]
    rw [if_neg (by simp [ht, hk]), complete_items _ _ _ hi hne hcomma hs hl hbound
      (by omega) (by simp [hc, hparen])]
    rfl

theorem complete_chainFrom {operand : Rule Expr} {P : Span Expr → Prop}
    {kinds extenders : List TokenKind} (ho : operand.Complete bound P extenders)
    (hkinds : ∀ kind ∈ kinds, kind ∉ extenders) (node : Expr → Token → Expr → Expr)
    (left : Expr) {links : List Link} (hks : ∀ l ∈ links, l.operator.kind ∈ kinds)
    (hls : ∀ l ∈ links, P l.operand)
    (hbound : (links.flatMap Link.tokens ++ rest).length ≤ bound)
    (hrounds : (links.flatMap Link.tokens ++ rest).length ≤ rounds)
    (hrest : Free (kinds ++ extenders) rest) :
    chainFrom operand node kinds rounds left stop (links.flatMap Link.tokens ++ rest) =
      ⟨some (links.foldl (fun e l => node e l.operator l.operand.tree) left), rest,
        links.flatMap (·.operand.errors)⟩ := by
  induction links generalizing rounds left with
  | nil =>
    cases rounds with
    | zero => rfl
    | succ rounds => simp [chainFrom, run_bind (take?_free hrest.of_append_left)]
  | cons link links ih =>
    have htokens : (link :: links).flatMap Link.tokens ++ rest =
        link.operator :: (link.operand.tokens ++ (links.flatMap Link.tokens ++ rest)) := by
      simp [Link.tokens]
    rw [htokens] at hbound hrounds ⊢
    rw [List.length_cons] at hbound hrounds
    obtain ⟨rounds, rfl⟩ : ∃ n, rounds = n + 1 := ⟨rounds - 1, by omega⟩
    have hnext : Free extenders (links.flatMap Link.tokens ++ rest) := by
      cases links with
      | nil => exact hrest.of_append_right
      | cons other others => exact free_cons.2 (hkinds _ (hks other (by simp)))
    have hoperand := ho stop link.operand _ (by omega) (hls link (by simp)) hnext
    rw [List.length_append] at hbound hrounds
    have hlinks := ih rounds (node left link.operator link.operand.tree)
      (fun l hl => hks l (by simp [hl])) (fun l hl => hls l (by simp [hl])) (by omega) (by omega)
    rw [chainFrom, run_bind (take?_cons (hks link (by simp)))]
    dsimp only
    rw [run_bind hoperand, hlinks]
    simp

theorem complete_chain {operand : Rule Expr} {c : Chain}
    (ho : operand.Complete (bound + 1) (Reads c.operand) c.operand.extenders) :
    (chain operand c.node c.kinds bound).Complete (bound + 1) (Reads (.chain c)) c.extenders := by
  intro stop s rest hbound h hrest
  rw [extenders_chain] at hrest
  cases h with
  | @chain _ first links hf hks hls =>
    have hpos := List.length_pos_iff.2 hf.ne_nil
    dsimp only at hbound ⊢
    rw [List.append_assoc] at hbound ⊢
    have hnext : Free c.operand.extenders (links.flatMap Link.tokens ++ rest) := by
      cases links with
      | nil => exact hrest.of_append_right
      | cons other others =>
        exact free_cons.2 (notMem_extenders_operand (hks other (by simp)))
    have hfirst := ho stop first _ hbound hf hnext
    rw [List.length_append] at hbound
    have hlinks := complete_chainFrom stop bound rest ho
      (fun kind => notMem_extenders_operand) c.node first.tree hks hls (by omega) (by omega) hrest
    rw [chain, run_bind hfirst, hlinks]
    rfl

theorem complete_primary {nested : Rule Expr}
    (hn : nested.Complete bound (Reads .assignment) Level.assignment.extenders) :
    (primary nested).Complete (bound + 1) (Reads .primary) Level.primary.extenders := by
  intro stop s rest hbound h hrest
  cases h with
  | @literal t value hv =>
    have hk := kind_of_constant? hv
    simp only [List.mem_cons, List.not_mem_nil, or_false] at hk
    rw [primary, List.singleton_append, run_bind (take?_cons (by simp only [List.mem_cons]; tauto))]
    obtain hk | hk | hk | hk | hk := hk <;>
      simp only [constant?, hk, Option.some.injEq] at hv ⊢ <;> simp [← hv]
  | @name t ht =>
    rw [primary, List.singleton_append, run_bind (take?_cons (by simp [ht]))]
    simp [ht]
  | @grouping opening closing inner ho hc hi =>
    dsimp only at hbound ⊢
    rw [List.cons_append, List.append_assoc, List.singleton_append] at hbound ⊢
    rw [List.length_cons] at hbound
    have hinner := hn stop inner (closing :: rest) (by omega) hi
      (free_cons.2 (by rw [hc]; decide))
    rw [primary, run_bind (take?_cons (by simp [ho]))]
    simp only [ho]
    rw [run_bind hinner, run_bind (expect_cons hc)]
    simp

theorem complete_callsFrom {nested : Rule Expr}
    (hn : nested.Complete bound (Reads .assignment) Level.assignment.extenders) (callee : Expr)
    {calls : List Application} (hp : ∀ c ∈ calls, c.Proper)
    (ha : ∀ c ∈ calls, ∀ a ∈ c.arguments, Reads .assignment a)
    (hbound : (calls.flatMap Application.tokens ++ rest).length ≤ bound)
    (hrounds : (calls.flatMap Application.tokens ++ rest).length ≤ rounds)
    (hrest : Free [.leftParen] rest) :
    callsFrom nested rounds callee stop (calls.flatMap Application.tokens ++ rest) =
      ⟨some (calls.foldl Application.node callee), rest, calls.flatMap (·.inner.errors)⟩ := by
  induction calls generalizing rounds callee with
  | nil =>
    cases rounds with
    | zero => rfl
    | succ rounds => simp [callsFrom, run_bind (take?_free hrest)]
  | cons c calls ih =>
    obtain ⟨ho, hi, hc⟩ := hp c (by simp)
    have htokens : (c :: calls).flatMap Application.tokens ++ rest = c.opening ::
        (c.inner.tokens ++ c.closing :: (calls.flatMap Application.tokens ++ rest)) := by
      simp [Application.tokens]
    rw [htokens] at hbound hrounds ⊢
    rw [List.length_cons] at hbound hrounds
    obtain ⟨rounds, rfl⟩ : ∃ n, rounds = n + 1 := ⟨rounds - 1, by omega⟩
    have hlist := complete_commaList stop rounds (calls.flatMap Application.tokens ++ rest) hn
      (fun s hs => by
        obtain ⟨t, ts, ht, hk⟩ := hs.head
        exact ⟨t, ts, ht, fun h => by rw [h] at hk; revert hk; decide⟩)
      (by decide) (by decide) (ha c (by simp)) hi hc (by omega) (by omega)
    rw [List.length_append, List.length_cons] at hbound hrounds
    have hcalls := ih rounds (.call callee c.closing c.inner.tree)
      (fun x hx => hp x (by simp [hx])) (fun x hx => ha x (by simp [hx])) (by omega) (by omega)
    rw [callsFrom, run_bind (take?_cons (by simp [ho]))]
    dsimp only
    rw [run_bind hlist, run_bind (expect_cons hc), hcalls]
    simp [Application.node]

theorem complete_call {nested : Rule Expr}
    (hn : nested.Complete bound (Reads .assignment) Level.assignment.extenders) :
    (call nested bound).Complete (bound + 1) (Reads .call) Level.call.extenders := by
  intro stop s rest hbound h hrest
  cases h with
  | @call callee calls hf hp ha =>
    have hpos := List.length_pos_iff.2 hf.ne_nil
    dsimp only at hbound ⊢
    rw [List.append_assoc] at hbound ⊢
    have hcallee := complete_primary hn stop callee _ hbound hf (by simp [Level.extenders, Free])
    rw [List.length_append] at hbound
    have hcalls := complete_callsFrom stop bound rest hn callee.tree hp ha (by omega)
      (by omega) hrest
    rw [call, run_bind hcallee, hcalls]
    rfl

theorem complete_unary {nested : Rule Expr}
    (hn : nested.Complete bound (Reads .assignment) Level.assignment.extenders) :
    (unary nested bound).Complete (bound + 1) (Reads .unary) Level.unary.extenders := by
  intro stop s rest hbound h hrest
  cases h with
  | @unary operators operand ho hr =>
    obtain ⟨t, ts, ht, hk⟩ := hr.call_head
    have htake : takeAll [.bang, .minus] stop (operators ++ (operand.tokens ++ rest)) =
        ⟨some operators, operand.tokens ++ rest, []⟩ := by
      have hall : ∀ t ∈ operators, decide (t.kind ∈ [TokenKind.bang, .minus]) = true := by
        simpa using ho
      refine takeAll_eq_some.2 ⟨?_, ?_, rfl⟩
      · rw [List.takeWhile_append_of_pos hall, ht, List.cons_append,
          List.takeWhile_cons_of_neg (by simpa using hk), List.append_nil]
      · rw [List.dropWhile_append_of_pos hall, ht, List.cons_append,
          List.dropWhile_cons_of_neg (by simpa using hk)]
    dsimp only at hbound ⊢
    rw [List.append_assoc] at hbound ⊢
    rw [List.length_append] at hbound
    have hoperand := complete_call hn stop operand rest (by omega) hr hrest
    rw [unary, run_bind htake, run_bind hoperand]
    simp

theorem complete_level {nested : Rule Expr}
    (hn : nested.Complete bound (Reads .assignment) Level.assignment.extenders) (c : Chain) :
    (levelRule nested bound (.chain c)).Complete (bound + 1) (Reads (.chain c)) c.extenders := by
  have hfactor : (factor nested bound).Complete (bound + 1) _ Chain.factor.extenders :=
    complete_chain (c := .factor) (complete_unary hn)
  have hterm : (term nested bound).Complete (bound + 1) _ Chain.term.extenders :=
    complete_chain (c := .term) hfactor
  have hcomparison : (comparison nested bound).Complete (bound + 1) _ Chain.comparison.extenders :=
    complete_chain (c := .comparison) hterm
  have hequality : (equality nested bound).Complete (bound + 1) _ Chain.equality.extenders :=
    complete_chain (c := .equality) hcomparison
  have hconjunction : (conjunction nested bound).Complete (bound + 1) _
      Chain.conjunction.extenders := complete_chain (c := .conjunction) hequality
  have hdisjunction : (disjunction nested bound).Complete (bound + 1) _
      Chain.disjunction.extenders := complete_chain (c := .disjunction) hconjunction
  cases c <;> assumption

theorem complete_assignment {nested : Rule Expr}
    (hn : nested.Complete bound (Reads .assignment) Level.assignment.extenders) :
    (assignment nested bound).Complete (bound + 1) (Reads .assignment)
      Level.assignment.extenders := by
  intro stop s rest hbound h hrest
  -- the target of an assignment and what its value stands for, for either form of one
  have hboth : ∀ {target value : Span Expr} {equal : Token},
      Reads (.chain .disjunction) target → equal.kind = .equal → Reads .assignment value →
      ((target.tokens ++ equal :: value.tokens) ++ rest).length ≤ bound + 1 →
      disjunction nested bound stop ((target.tokens ++ equal :: value.tokens) ++ rest) =
        ⟨some target.tree, equal :: (value.tokens ++ rest), target.errors⟩ ∧
      nested stop (value.tokens ++ rest) = ⟨some value.tree, rest, value.errors⟩ := by
    intro target value equal ht he hv hbound
    have hpos := List.length_pos_iff.2 ht.ne_nil
    rw [List.append_assoc, List.cons_append] at hbound ⊢
    have htarget := complete_level hn .disjunction stop target _ hbound ht
      (free_cons.2 (by rw [he]; decide))
    rw [List.length_append, List.length_cons] at hbound
    exact ⟨htarget, hn stop value rest (by omega) hv hrest⟩
  cases h with
  | plain hs =>
    have htarget := complete_level hn .disjunction stop s rest hbound hs
      hrest.tail
    rw [levelRule] at htarget
    rw [assignment, run_bind htarget, run_bind (take?_free hrest.head)]
    simp
  | @assign target value name equal ht hname he hv =>
    obtain ⟨htarget, hvalue⟩ := hboth ht he hv hbound
    rw [assignment, run_bind htarget, run_bind (take?_cons (by simp [he]))]
    dsimp only
    rw [run_bind hvalue, hname]
    simp
  | @misassign target value equal ht hname he hv =>
    obtain ⟨htarget, hvalue⟩ := hboth ht he hv hbound
    rw [assignment, run_bind htarget, run_bind (take?_cons (by simp [he]))]
    dsimp only
    rw [run_bind hvalue]
    cases htree : target.tree with
    | «variable» name => exact absurd htree (hname name)
    | _ =>
      dsimp only
      rw [run_bind (complain_run equal .assignmentTarget)]
      simp

theorem complete_expression (depth : Nat) :
    (expression depth).Complete depth (Reads .assignment) Level.assignment.extenders := by
  induction depth with
  | zero =>
    intro stop s rest hbound h
    have hpos := List.length_pos_iff.2 h.ne_nil
    rw [List.length_append] at hbound
    omega
  | succ depth ih => exact complete_assignment ih

end

end Lox.Syntax
