import Lox.Proofs.Syntax.Complete
import Lox.Proofs.Syntax.Stable

namespace Lox.Syntax

open Rule

-- A rule leaves the end of what it is given.
def Rule.Shrinks {α : Type} (r : Rule α) : Prop :=
  ∀ stop tokens, (r stop tokens).rest <:+ tokens

-- A rule reads at least one token for each value that it gives.
def Rule.Advances {α : Type} (r : Rule α) : Prop :=
  ∀ stop tokens a, (r stop tokens).value = some a → (r stop tokens).rest.length < tokens.length

-- Rules that do the same with up to so many tokens.
def Rule.Agrees {α : Type} (n : Nat) (r r' : Rule α) : Prop :=
  ∀ stop tokens, tokens.length ≤ n → r stop tokens = r' stop tokens

theorem recover_suffix (tokens : List Token) : recover tokens <:+ tokens := by
  induction tokens with
  | nil => exact List.suffix_refl []
  | cons t ts ih =>
    rw [recover]
    split
    · exact List.suffix_cons t ts
    · exact ih.trans (List.suffix_cons t ts)

theorem length_recover_lt {tokens : List Token} (h : tokens ≠ []) :
    (recover tokens).length < tokens.length := by
  obtain ⟨t, ts, rfl⟩ := List.exists_cons_of_ne_nil h
  rw [recover, List.length_cons]
  split
  · exact Nat.lt_succ_self _
  · exact Nat.lt_succ_of_le (recover_suffix ts).length_le

section

variable {α β : Type} {stop : Token} {tokens rest : List Token} {errors : List SyntaxError}

theorem Rule.Shrinks.bind {r : Rule α} {f : α → Rule β} (hr : r.Shrinks)
    (hf : ∀ a, (f a).Shrinks) : (r >>= f).Shrinks := by
  intro stop tokens
  have hfirst := hr stop tokens
  rcases hrun : r stop tokens with ⟨_ | a, rest, errors⟩ <;> rw [hrun] at hfirst
  · rw [run_bind_none f hrun]
    exact hfirst
  · rw [run_bind hrun]
    exact (hf a stop rest).trans hfirst

theorem stable_shrinks : Rule.Stable (fun _ => True) Shrinks where
  pure _ _ tokens := List.suffix_refl tokens
  bind hr hf := hr.bind hf
  here hf := Shrinks.bind (fun _ tokens => List.suffix_refl tokens) fun t => hf t trivial
  peek _ tokens := List.suffix_refl tokens
  taken kinds f hnone hsome := by
    refine Shrinks.bind (fun stop tokens => ?_) fun t => ?_
    · unfold Rule.take?
      split
      · exact List.suffix_refl []
      · split
        · exact List.suffix_cons _ _
        · exact List.suffix_refl _
    · cases t with
      | none => exact hnone
      | some t => exact hsome t trivial
  takeAll _ _ _ := List.dropWhile_suffix _
  complain _ _ _ tokens := List.suffix_refl tokens
  fail _ _ tokens := List.suffix_refl tokens
  recovering {r} hr stop tokens := by
    have hrun := hr stop tokens
    unfold Syntax.recovering
    split <;> next heq =>
      rw [heq] at hrun
      first
        | exact (recover_suffix _).trans hrun
        | exact hrun

theorem Rule.Advances.bind {r : Rule α} {f : α → Rule β} (hr : r.Advances)
    (hf : ∀ a, (f a).Shrinks) : (r >>= f).Advances := by
  intro stop tokens b hb
  rcases hrun : r stop tokens with ⟨_ | a, rest, errors⟩
  · rw [run_bind_none f hrun] at hb
    cases hb
  · have hfirst := hr stop tokens a
    rw [hrun] at hfirst
    rw [run_bind hrun]
    exact Nat.lt_of_le_of_lt (hf a stop rest).length_le (hfirst rfl)

theorem Rule.Shrinks.advance {r : Rule α} {f : α → Rule β} (hr : r.Shrinks)
    (hf : ∀ a, (f a).Advances) : (r >>= f).Advances := by
  intro stop tokens b hb
  have hfirst := hr stop tokens
  rcases hrun : r stop tokens with ⟨_ | a, rest, errors⟩ <;> rw [hrun] at hfirst
  · rw [run_bind_none f hrun] at hb
    cases hb
  · rw [run_bind hrun] at hb ⊢
    exact Nat.lt_of_lt_of_le (hf a stop rest b hb) hfirst.length_le

theorem advances_taken (kinds : List TokenKind) {f : Option Token → Rule α}
    (hnone : (f none).Advances) (hsome : ∀ t, (f (some t)).Shrinks) :
    (take? kinds >>= f).Advances := by
  intro stop tokens b hb
  by_cases hfree : Free kinds tokens
  · rw [run_bind (take?_free hfree)] at hb ⊢
    exact hnone stop tokens b hb
  · cases tokens with
    | nil => exact absurd (free_nil kinds) hfree
    | cons t ts =>
      rw [free_cons, not_not] at hfree
      rw [run_bind (take?_cons hfree)]
      exact Nat.lt_succ_of_le (hsome t stop ts).length_le

theorem advances_fail (fault : SyntaxFault) : (fail fault : Rule α).Advances := by
  intro stop tokens a h
  cases h

end

section

variable (nested : Rule Expr) (hn : nested.Shrinks)
include hn

theorem advances_primary : (primary nested).Advances := by
  refine advances_taken _ (advances_fail _) fun t => ?_
  dsimp only
  split
  all_goals first
    | exact stable_shrinks.pure _
    | exact hn.bind fun inner => (stable_shrinks.expect _ _).bind fun _ => stable_shrinks.pure _

theorem advances_unary (rounds : Nat) : (unary nested rounds).Advances := by
  refine (stable_shrinks.takeAll _).advance fun operators => Advances.bind ?_ fun operand =>
    stable_shrinks.pure _
  exact (advances_primary nested hn).bind fun e => stable_shrinks.callsFrom hn rounds e

end

namespace Rule.Agrees

variable {α β : Type} {n : Nat} {r r' : Rule α} {f f' : α → Rule β}

theorem refl (r : Rule α) : r.Agrees n r :=
  fun _ _ _ => rfl

theorem mono {m : Nat} (h : r.Agrees n r') (hm : m ≤ n) : r.Agrees m r' :=
  fun stop tokens hlen => h stop tokens (Nat.le_trans hlen hm)

theorem of_nil (h : ∀ stop, r stop [] = r' stop []) : r.Agrees 0 r' := by
  intro stop tokens hlen
  obtain rfl := List.length_eq_zero_iff.1 (Nat.le_zero.1 hlen)
  exact h stop

theorem bind (hr : r.Agrees n r') (hs : r.Shrinks) (hf : ∀ a, (f a).Agrees n (f' a)) :
    (r >>= f).Agrees n (r' >>= f') := by
  intro stop tokens hlen
  have heq := hr stop tokens hlen
  have hle := (hs stop tokens).length_le
  rcases hrun : r stop tokens with ⟨_ | a, rest, errors⟩ <;> rw [hrun] at heq hle
  · rw [run_bind_none f hrun, run_bind_none f' heq.symm]
  · rw [run_bind hrun, run_bind heq.symm, hf a stop rest (Nat.le_trans hle hlen)]

-- What follows a rule that reads something has fewer tokens left.
theorem advance (hr : r.Agrees (n + 1) r') (ha : r.Advances) (hf : ∀ a, (f a).Agrees n (f' a)) :
    (r >>= f).Agrees (n + 1) (r' >>= f') := by
  intro stop tokens hlen
  have heq := hr stop tokens hlen
  have hlt := ha stop tokens
  rcases hrun : r stop tokens with ⟨_ | a, rest, errors⟩ <;> rw [hrun] at heq hlt
  · rw [run_bind_none f hrun, run_bind_none f' heq.symm]
  · have hless := hlt a rfl
    dsimp only at hless
    rw [run_bind hrun, run_bind heq.symm, hf a stop rest (by omega)]

theorem taken (kinds : List TokenKind) {f f' : Option Token → Rule α}
    (hnone : (f none).Agrees n (f' none))
    (hsome : ∀ t, ∀ m < n, (f (some t)).Agrees m (f' (some t))) :
    (take? kinds >>= f).Agrees n (take? kinds >>= f') := by
  intro stop tokens hlen
  by_cases hfree : Free kinds tokens
  · rw [run_bind (take?_free hfree), run_bind (take?_free hfree), hnone stop tokens hlen]
  · cases tokens with
    | nil => exact absurd (free_nil kinds) hfree
    | cons t ts =>
      rw [free_cons, not_not] at hfree
      rw [run_bind (take?_cons hfree), run_bind (take?_cons hfree),
        hsome t ts.length hlen stop ts (Nat.le_refl _)]

theorem map {r r' : Rule α} (g : α → β) (h : r.Agrees n r') : (g <$> r).Agrees n (g <$> r') := by
  intro stop tokens hlen
  rw [map_eq_pure_bind, map_eq_pure_bind]
  simp only [Bind.bind, h stop tokens hlen]

theorem recovering {r r' : Rule Stmt} (h : r.Agrees n r') :
    (recovering r).Agrees n (recovering r') := by
  intro stop tokens hlen
  rw [Syntax.recovering, Syntax.recovering, h stop tokens hlen]

end Rule.Agrees

section

variable {α : Type} {n : Nat}

theorem agrees_items {item item' : Rule α} (hi : item.Agrees n item') (hs : item.Shrinks)
    (what : ListItem) {rounds rounds' : Nat} (count : Nat) (hr : n < rounds) (hr' : n < rounds') :
    (items item what rounds count).Agrees n (items item' what rounds' count) := by
  induction rounds generalizing n rounds' count with
  | zero => exact absurd hr (Nat.not_lt_zero n)
  | succ rounds ih =>
    obtain ⟨rounds', rfl⟩ : ∃ k, rounds' = k + 1 := ⟨rounds' - 1, by omega⟩
    rw [items_succ, items_succ]
    refine (Agrees.refl _).bind (stable_shrinks.remark what count) fun _ =>
      hi.bind hs fun first => Agrees.taken _ (.refl _) fun t m hm => ?_
    have hothers := ih (hi.mono (Nat.le_of_lt hm)) (count + 1) (by omega : m < rounds)
      (by omega : m < rounds')
    exact hothers.bind (stable_shrinks.items hs what rounds (count + 1)) fun _ => .refl _

theorem agrees_commaList {item item' : Rule α} (hi : item.Agrees n item') (hs : item.Shrinks)
    (what : ListItem) {rounds rounds' : Nat} (hr : n ≤ rounds) (hr' : n ≤ rounds') :
    (commaList item what rounds).Agrees n (commaList item' what rounds') := by
  refine (Agrees.refl _).bind stable_shrinks.peek fun kind => ?_
  split
  · exact .refl _
  · exact agrees_items hi hs what 0 (Nat.lt_succ_of_le hr) (Nat.lt_succ_of_le hr')

theorem agrees_chainFrom {operand operand' : Rule Expr} (ho : operand.Agrees n operand')
    (hs : operand.Shrinks) (node : Expr → Token → Expr → Expr) (kinds : List TokenKind)
    {rounds rounds' : Nat} (left : Expr) (hr : n ≤ rounds) (hr' : n ≤ rounds') :
    (chainFrom operand node kinds rounds left).Agrees n
      (chainFrom operand' node kinds rounds' left) := by
  induction n generalizing rounds rounds' left with
  | zero => exact Agrees.of_nil fun stop => by cases rounds <;> cases rounds' <;> rfl
  | succ n ih =>
    obtain ⟨rounds, rfl⟩ : ∃ k, rounds = k + 1 := ⟨rounds - 1, by omega⟩
    obtain ⟨rounds', rfl⟩ : ∃ k, rounds' = k + 1 := ⟨rounds' - 1, by omega⟩
    refine Agrees.taken _ (.refl _) fun t m hm => ?_
    refine (ho.mono (Nat.le_of_lt hm)).bind hs fun right => ?_
    exact (ih (ho.mono (Nat.le_succ n)) _ (by omega) (by omega)).mono (Nat.le_of_lt_succ hm)

end

-- Rules that do the same with up to so many tokens, and the first of which reads some of them.
structure Rule.Pairs {α : Type} (n : Nat) (r r' : Rule α) : Prop where
  agrees : r.Agrees (n + 1) r'
  advances : r.Advances
  shrinks : r.Shrinks

theorem pairs_chain {n : Nat} {operand operand' : Rule Expr} (ho : operand.Pairs n operand')
    (node : Expr → Token → Expr → Expr) (kinds : List TokenKind) {rounds rounds' : Nat}
    (hr : n ≤ rounds) (hr' : n ≤ rounds') :
    (chain operand node kinds rounds).Pairs n (chain operand' node kinds rounds') where
  agrees := ho.agrees.advance ho.advances fun left =>
    agrees_chainFrom (ho.agrees.mono (Nat.le_succ n)) ho.shrinks node kinds left hr hr'
  advances := ho.advances.bind fun left =>
    stable_shrinks.chainFrom ho.shrinks node kinds rounds left
  shrinks := stable_shrinks.chain ho.shrinks node kinds rounds

section

variable {n : Nat} {nested nested' : Rule Expr}

theorem agrees_primary (hn : ∀ m < n, nested.Agrees m nested') (hs : nested.Shrinks) :
    (primary nested).Agrees n (primary nested') := by
  refine Agrees.taken _ (.refl _) fun t m hm => ?_
  dsimp only
  split
  all_goals first
    | exact .refl _
    | exact (hn m hm).bind hs fun _ => .refl _

theorem agrees_callsFrom (hn : ∀ m < n, nested.Agrees m nested') (hs : nested.Shrinks)
    {rounds rounds' : Nat} (callee : Expr) (hr : n ≤ rounds) (hr' : n ≤ rounds') :
    (callsFrom nested rounds callee).Agrees n (callsFrom nested' rounds' callee) := by
  induction n generalizing rounds rounds' callee with
  | zero => exact Agrees.of_nil fun stop => by cases rounds <;> cases rounds' <;> rfl
  | succ n ih =>
    obtain ⟨rounds, rfl⟩ : ∃ k, rounds = k + 1 := ⟨rounds - 1, by omega⟩
    obtain ⟨rounds', rfl⟩ : ∃ k, rounds' = k + 1 := ⟨rounds' - 1, by omega⟩
    refine Agrees.taken _ (.refl _) fun t m hm => ?_
    refine (agrees_commaList (hn m hm) hs .arguments (by omega) (by omega)).bind
      (stable_shrinks.commaList hs .arguments rounds) fun arguments => ?_
    refine (Agrees.refl _).bind (stable_shrinks.expect _ _) fun paren => ?_
    exact (ih (fun k hk => hn k (by omega)) _ (by omega) (by omega)).mono (Nat.le_of_lt_succ hm)

theorem pairs_disjunction (hn : ∀ m ≤ n, nested.Agrees m nested') (hs : nested.Shrinks)
    {rounds rounds' : Nat} (hr : n ≤ rounds) (hr' : n ≤ rounds') :
    (disjunction nested rounds).Pairs n (disjunction nested' rounds') := by
  have hshrinks : (call nested rounds).Shrinks :=
    (stable_shrinks.primary hs).bind fun e => stable_shrinks.callsFrom hs rounds e
  have hcall : (call nested rounds).Agrees (n + 1) (call nested' rounds') := by
    have hprimary : (primary nested).Agrees (n + 1) (primary nested') :=
      agrees_primary (fun m hm => hn m (Nat.le_of_lt_succ hm)) hs
    exact hprimary.advance (advances_primary nested hs) fun callee =>
      agrees_callsFrom (fun m hm => hn m (Nat.le_of_lt hm)) hs callee hr hr'
  have hunary : (unary nested rounds).Pairs n (unary nested' rounds') := by
    refine ⟨?_, advances_unary nested hs rounds, ?_⟩
    · exact (Agrees.refl _).bind (stable_shrinks.takeAll _) fun operators =>
        hcall.bind hshrinks fun _ => .refl _
    · exact (stable_shrinks.takeAll _).bind fun operators =>
        hshrinks.bind fun _ => stable_shrinks.pure _
  exact pairs_chain (pairs_chain (pairs_chain (pairs_chain (pairs_chain (pairs_chain hunary _ _
    hr hr') _ _ hr hr') _ _ hr hr') _ _ hr hr') _ _ hr hr') _ _ hr hr'

theorem agrees_assignment (hn : ∀ m ≤ n, nested.Agrees m nested') (hs : nested.Shrinks)
    {rounds rounds' : Nat} (hr : n ≤ rounds) (hr' : n ≤ rounds') :
    (assignment nested rounds).Agrees (n + 1) (assignment nested' rounds') := by
  have hdisjunction := pairs_disjunction hn hs hr hr'
  refine hdisjunction.agrees.advance hdisjunction.advances fun target =>
    Agrees.taken _ (.refl _) fun t m hm => ?_
  exact (hn m (Nat.le_of_lt hm)).bind hs fun _ => .refl _

theorem advances_assignment (hs : nested.Shrinks) (rounds : Nat) :
    (assignment nested rounds).Advances := by
  have hdisjunction : (disjunction nested rounds).Pairs 0 (disjunction nested rounds) :=
    pairs_disjunction (fun _ _ => .refl _) hs (Nat.zero_le _) (Nat.zero_le _)
  refine hdisjunction.advances.bind fun target => stable_shrinks.taken _ (stable_shrinks.pure _)
    fun equal _ => hs.bind fun value => ?_
  cases target with
  | «variable» name => exact stable_shrinks.pure _
  | _ => exact (stable_shrinks.complain _ trivial).bind fun _ => stable_shrinks.pure _

theorem advances_expression (depth : Nat) : (expression depth).Advances := by
  cases depth with
  | zero => exact advances_fail _
  | succ depth => exact advances_assignment (stable_shrinks.expression depth) depth

end

theorem takeAll_free {stop : Token} {kinds : List TokenKind} {tokens : List Token}
    (h : Free kinds tokens) : takeAll kinds stop tokens = ⟨some [], tokens, []⟩ := by
  cases tokens with
  | nil => rfl
  | cons t ts =>
    rw [free_cons] at h
    refine takeAll_eq_some.2 ⟨?_, ?_, rfl⟩
    · exact List.takeWhile_cons_of_neg (by simpa using h)
    · exact List.dropWhile_cons_of_neg (by simpa using h)

-- In front of no token that starts one, no expression is read.
theorem expression_free {stop : Token} {tokens : List Token} (h : Free expressionStarters tokens)
    (depth : Nat) : expression depth stop tokens =
      ⟨none, tokens, [⟨tokens.headD stop, .noExpression⟩]⟩ := by
  cases depth with
  | zero => rfl
  | succ depth =>
    have hsplit : expressionStarters = [.number, .string, .trueKw, .falseKw, .nilKw, .identifier,
        .leftParen] ++ [.bang, .minus] := rfl
    rw [hsplit] at h
    have hprimary : primary (expression depth) stop tokens =
        ⟨none, tokens, [⟨tokens.headD stop, .noExpression⟩]⟩ := by
      rw [primary, run_bind (take?_free h.of_append_left)]
      rfl
    have hcall : call (expression depth) depth stop tokens = _ := run_bind_none _ hprimary
    have hunary : unary (expression depth) depth stop tokens =
        ⟨none, tokens, [⟨tokens.headD stop, .noExpression⟩]⟩ := by
      rw [unary, run_bind (takeAll_free h.of_append_right), run_bind_none _ hcall]
      rfl
    have hfactor : factor (expression depth) depth stop tokens = _ := run_bind_none _ hunary
    have hterm : term (expression depth) depth stop tokens = _ := run_bind_none _ hfactor
    have hcomparison : comparison (expression depth) depth stop tokens = _ :=
      run_bind_none _ hterm
    have hequality : equality (expression depth) depth stop tokens = _ :=
      run_bind_none _ hcomparison
    have hconjunction : conjunction (expression depth) depth stop tokens = _ :=
      run_bind_none _ hequality
    exact run_bind_none _ (run_bind_none _ hconjunction)

theorem agrees_expression {n depth depth' : Nat} (h : n ≤ depth) (h' : n ≤ depth') :
    (expression depth).Agrees n (expression depth') := by
  induction n generalizing depth depth' with
  | zero =>
    exact Agrees.of_nil fun stop => by
      rw [expression_free (free_nil _), expression_free (free_nil _)]
  | succ n ih =>
    obtain ⟨depth, rfl⟩ : ∃ k, depth = k + 1 := ⟨depth - 1, by omega⟩
    obtain ⟨depth', rfl⟩ : ∃ k, depth' = k + 1 := ⟨depth' - 1, by omega⟩
    have hle : n ≤ depth := Nat.le_of_succ_le_succ h
    have hle' : n ≤ depth' := Nat.le_of_succ_le_succ h'
    exact agrees_assignment (fun m hm => (ih hle hle').mono hm) (stable_shrinks.expression depth)
      hle hle'

end Lox.Syntax
