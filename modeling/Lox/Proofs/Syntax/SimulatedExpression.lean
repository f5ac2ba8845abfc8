import Lox.Proofs.Syntax.Simulated

namespace Lox.Syntax

open Rule

theorem Rule.Free.of_subset {kinds others : List TokenKind} {tokens : List Token}
    (h : Free kinds tokens) (hsub : others ⊆ kinds) : Free others tokens :=
  fun t ht hk => h t ht (hsub hk)

-- Neither the next token nor the one that marks the end is of a kind that is not next.
theorem Ends.kind_notMem {before rest : List Token} {stop : Token} {kinds : List TokenKind}
    (hends : Ends before stop) (hfree : Free kinds rest) (heof : .eof ∉ kinds) :
    (rest.headD stop).kind ∉ kinds := by
  cases rest with
  | nil => rwa [List.headD_nil, hends.stop]
  | cons t ts => exact free_cons.1 hfree

-- Operators are read one after the other.
theorem unary_eq (nested : Rule Expr) (rounds : Nat) :
    unary nested rounds = (do
      match ← take? [.bang, .minus] with
      | none => call nested rounds
      | some operator => return .unary operator (← unary nested rounds)) := by
  funext stop tokens
  by_cases hfree : Free [.bang, .minus] tokens
  · rw [unary, run_bind (takeAll_free hfree), run_bind (take?_free hfree)]
    exact congrArg (Reading.after [] <| · stop tokens) (bind_pure (call nested rounds))
  · cases tokens with
    | nil => exact absurd (free_nil _) hfree
    | cons t ts =>
      rw [free_cons, not_not] at hfree
      have hall : takeAll [.bang, .minus] stop (t :: ts) =
          ⟨some (t :: ts.takeWhile (·.kind ∈ [.bang, .minus])),
            ts.dropWhile (·.kind ∈ [.bang, .minus]), []⟩ :=
        takeAll_eq_some.2 ⟨List.takeWhile_cons_of_pos (by simpa using hfree),
          List.dropWhile_cons_of_pos (by simpa using hfree), rfl⟩
      have hmore : (unary nested rounds >>= fun e => pure (Expr.unary t e)) =
          (takeAll [.bang, .minus] >>= fun operators => call nested rounds >>= fun operand =>
            pure (.unary t (operators.foldr .unary operand))) := by
        simp only [unary, bind_assoc, pure_bind]
      rw [run_bind (take?_cons hfree), unary, run_bind hall]
      apply congrArg (Reading.after [])
      show _ = (unary nested rounds >>= fun e => pure (Expr.unary t e)) stop ts
      rw [hmore, run_bind (takeAll_eq_some.2 ⟨rfl, rfl, rfl⟩)]
      rfl

namespace Simulates

variable {α : Type} {n : Nat}

theorem items {item : Walk α} {item' : Rule α} (hi : Simulates Anywhere n item item')
    (what : ListItem) {rounds : Nat} (count : Nat) (hr : n < rounds) :
    Simulates Anywhere n (Walk.itemsFrom item what rounds count)
      (items item' what rounds count) := by
  induction rounds generalizing n count with
  | zero => exact absurd hr (Nat.not_lt_zero n)
  | succ rounds ih =>
    rw [items_succ]
    refine (Simulates.remark what count).bind fun _ => hi.bind fun first => .accept (.pure _) ?_
    intro t _ m hm
    have hothers := ih (hi.weaken (Nat.le_of_lt hm)) (count + 1) (by omega : m < rounds)
    exact hothers.anywhere.bind fun _ => .pure _

theorem commaList {item : Walk α} {item' : Rule α} (hi : Simulates Anywhere n item item')
    (what : ListItem) {rounds : Nat} (hr : n ≤ rounds) :
    Simulates Anywhere n (Walk.commaSeparated item what rounds) (commaList item' what rounds) :=
  .checked (.pure _) (hi.items what 0 (Nat.lt_succ_of_le hr))

section

variable {nested : Walk Expr} {nested' : Rule Expr}

theorem chainFrom {operand : Walk Expr} {operand' : Rule Expr}
    (ho : Simulates Anywhere n operand operand') (node : Expr → Token → Expr → Expr)
    (kinds : List TokenKind) {rounds : Nat} (left : Expr) (hr : n < rounds) :
    Simulates Anywhere n (Walk.linksFrom operand node kinds rounds left)
      (chainFrom operand' node kinds rounds left) := by
  induction rounds generalizing n left with
  | zero => exact absurd hr (Nat.not_lt_zero n)
  | succ rounds ih =>
    refine .accept (.pure left) fun t _ m hm => .previous ?_
    have hoperand := ho.weaken (P := Anywhere) (Nat.le_of_lt hm)
    exact hoperand.bind fun right => ih hoperand (node left t right) (by omega)

theorem chain {operand : Walk Expr} {operand' : Rule Expr}
    (ho : Simulates Anywhere n operand operand') (node : Expr → Token → Expr → Expr)
    (kinds : List TokenKind) {rounds : Nat} (hr : n < rounds) :
    Simulates Anywhere n (Walk.leftAssociative operand node kinds rounds)
      (chain operand' node kinds rounds) :=
  ho.bind fun left => ho.chainFrom node kinds left hr

-- The rule takes one of all tokens that can start it at once; the walk asks for them in turn.
theorem primary (hn : ∀ m < n, Simulates Anywhere m nested nested') :
    Simulates Anywhere n (Walk.primary nested) (primary nested') := by
  intro before stop hends rest cursor hat _ hlen
  refine (goes_peek hat).then fun c hc _ => ?_
  by_cases hfree : Free [.number, .string, .trueKw, .falseKw, .nilKw, .identifier, .leftParen] rest
  · have hnone : Syntax.primary nested' stop rest =
        ⟨none, rest, [⟨rest.headD stop, .noExpression⟩]⟩ := by
      rw [Syntax.primary, run_bind (take?_free hfree)]
      rfl
    have hkind := hends.kind_notMem hfree (by decide)
    have hidentifier : Free [.identifier] rest := hfree.of_subset (by simp)
    have hparen : Free [.leftParen] rest := hfree.of_subset (by simp)
    rw [hnone]
    split
    case h_6 =>
      refine (goes_accept_free hends hc hidentifier).then fun c hc _ => ?_
      exact (goes_accept_free hends hc hparen).then fun c hc _ => goes_raise _ _ hc
    all_goals next h =>
      rw [h] at hkind
      exact absurd (by decide) hkind
  · cases rest with
    | nil => exact absurd (free_nil _) hfree
    | cons t ts =>
      rw [free_cons, not_not] at hfree
      rw [Syntax.primary, run_bind (take?_cons hfree)]
      simp only [List.mem_cons, List.not_mem_nil, or_false] at hfree
      have hliteral (e : Expr) : Goes before stop (Walk.advance >>= fun _ => Pure.pure e) c
          (Reading.after [] ((Pure.pure e : Rule Expr) stop ts)) :=
        (goes_advance hends hc).bind fun c hc _ => goes_pure e hc
      rcases hfree with h | h | h | h | h | h | h <;> simp only [List.headD, h]
      · exact hliteral _
      · exact hliteral _
      · exact hliteral _
      · exact hliteral _
      · exact hliteral _
      · exact (goes_accept hends hc (by simp [h])).bind fun c hc _ => goes_pure _ hc
      · refine (goes_accept_free hends hc (by simp [h])).then fun c hc _ => ?_
        refine (goes_accept hends hc (by simp [h])).bind fun c hc _ => ?_
        have hgroup := (hn ts.length hlen).bind fun inner =>
          (Simulates.consume .rightParen .groupEnd).bind fun _ => .pure (Expr.grouping inner)
        exact hgroup before stop hends ts c hc trivial (Nat.le_refl _)

theorem callsFrom (hn : ∀ m < n, Simulates Anywhere m nested nested') {rounds : Nat}
    (callee : Expr) (hr : n < rounds) :
    Simulates Anywhere n (Walk.callsFrom nested rounds callee)
      (callsFrom nested' rounds callee) := by
  induction rounds generalizing n callee with
  | zero => exact absurd hr (Nat.not_lt_zero n)
  | succ rounds ih =>
    refine .accept (.pure callee) fun t _ m hm => ?_
    have harguments := (hn m hm).commaList .arguments (by omega : m ≤ rounds)
    refine harguments.anywhere.bind fun _ => (Simulates.consume _ _).bind fun _ => ?_
    exact ih (fun k hk => hn k (by omega)) _ (by omega)

theorem call (hn : ∀ m < n, Simulates Anywhere m nested nested') {rounds : Nat}
    (hr : n < rounds) :
    Simulates Anywhere n (Walk.call nested rounds) (call nested' rounds) :=
  (Simulates.primary hn).bind fun callee => .callsFrom hn callee hr

theorem unary (hn : ∀ m < n, Simulates Anywhere m nested nested') {depth rounds : Nat}
    (hd : n < depth) (hr : n < rounds) :
    Simulates Anywhere n (Walk.unary nested depth rounds) (unary nested' depth) := by
  induction rounds generalizing n with
  | zero => exact absurd hr (Nat.not_lt_zero n)
  | succ rounds ih =>
    rw [unary_eq]
    refine .accept (.call hn hd) fun operator _ m hm => .previous ?_
    exact (ih (fun k hk => hn k (Nat.lt_trans hk hm)) (by omega) (by omega)).bind fun _ => .pure _

theorem disjunction (hn : ∀ m < n, Simulates Anywhere m nested nested') {depth : Nat}
    (hd : n < depth) :
    Simulates Anywhere n (Walk.disjunction nested depth) (disjunction nested' depth) := by
  have hfactor := (Simulates.unary hn hd hd).chain .binary [.slash, .star] hd
  have hterm := hfactor.chain .binary [.minus, .plus] hd
  have hcomparison := hterm.chain .binary [.greater, .greaterEqual, .less, .lessEqual] hd
  have hequality := hcomparison.chain .binary [.bangEqual, .equalEqual] hd
  exact (hequality.chain .logical [.andKw] hd).chain .logical [.orKw] hd

theorem assignment (hn : ∀ m < n, Simulates Anywhere m nested nested') {depth : Nat}
    (hd : n < depth) :
    Simulates Anywhere n (Walk.assignment nested depth) (assignment nested' depth) := by
  refine (Simulates.disjunction hn hd).bind fun target => .accept (.pure target) ?_
  refine fun equal _ m hm => .previous ((hn m hm).bind fun value => ?_)
  cases target with
  | «variable» name => exact .pure _
  | _ => exact (Simulates.report equal _).bind fun _ => .pure _

end

-- The rule has one round less than the walk, which makes no difference with so few tokens.
theorem expression {depth : Nat} (hd : n < depth) :
    Simulates Anywhere n (Walk.expression depth) (expression depth) := by
  induction depth generalizing n with
  | zero => exact absurd hd (Nat.not_lt_zero n)
  | succ depth ih =>
    have hassignment : Simulates Anywhere n (Walk.expression (depth + 1))
        (Syntax.assignment (Syntax.expression depth) (depth + 1)) :=
      .assignment (fun m hm => ih (by omega)) hd
    have hagrees := agrees_assignment (n := depth) (fun m _ => .refl (Syntax.expression depth))
      (stable_shrinks.expression depth) (Nat.le_succ depth) (Nat.le_refl depth)
    exact hassignment.of_agrees (hagrees.mono hd.le)

end Simulates

end Lox.Syntax
