import Lox.Proofs.Syntax.Reading
import Lox.Proofs.Syntax.Reads
import Mathlib.Data.List.TakeWhile

namespace Lox.Syntax

open Rule

-- The rule of a level of precedence, given the rule for the expressions nested in it.
def levelRule (nested : Rule Expr) (rounds : Nat) : Level → Rule Expr
  | .assignment => assignment nested rounds
  | .chain .disjunction => disjunction nested rounds
  | .chain .conjunction => conjunction nested rounds
  | .chain .equality => equality nested rounds
  | .chain .comparison => comparison nested rounds
  | .chain .term => term nested rounds
  | .chain .factor => factor nested rounds
  | .unary => unary nested rounds
  | .call => call nested rounds
  | .primary => primary nested

section

variable {α : Type} {what : ListItem} {count : Nat} {stop : Token} {tokens rest : List Token}
  {errors : List SyntaxError}

theorem remark_eq_some {u : Unit} :
    remark what count stop tokens = ⟨some u, rest, errors⟩ ↔
      tokens = rest ∧
        errors = if listLimit ≤ count then [⟨tokens.headD stop, .tooMany what⟩] else [] := by
  unfold remark
  split
  · simp only [bind_eq_some, here_eq_some, complain_eq_some]
    constructor
    · rintro ⟨t, middle, first, second, ⟨rfl, rfl, rfl⟩, ⟨rfl, rfl⟩, rfl⟩
      exact ⟨rfl, rfl⟩
    · rintro ⟨rfl, rfl⟩
      exact ⟨_, _, _, _, ⟨rfl, rfl, rfl⟩, ⟨rfl, rfl⟩, rfl⟩
  · simp

theorem excess_append (what : ListItem) (count : Nat) {w : List Token} (hw : w ≠ [])
    (stop : Token) (rest : List Token) :
    (if listLimit ≤ count then [⟨(w ++ rest).headD stop, .tooMany what⟩] else []) =
      excess what count w := by
  cases w with
  | nil => exact absurd rfl hw
  | cons t w => simp [excess]

theorem remark_append {w : List Token} (hw : w ≠ []) :
    remark what count stop (w ++ rest) = ⟨some (), w ++ rest, excess what count w⟩ :=
  remark_eq_some.2 ⟨rfl, (excess_append what count hw stop rest).symm⟩

end

-- Whatever the rule makes a value of stands for that value. The bound on the number of tokens is
-- what rules that repeat need.
def Rule.Sound {α : Type} (r : Rule α) (bound : Nat) (P : Span α → Prop) : Prop :=
  ∀ stop tokens a rest errors, tokens.length ≤ bound → r stop tokens = ⟨some a, rest, errors⟩ →
    ∃ w, tokens = w ++ rest ∧ P ⟨w, a, errors⟩

section

variable {α : Type} {bound rounds : Nat} {stop : Token} {tokens rest : List Token}
  {errors : List SyntaxError}

-- Each round reads a token, because an item without any would not be one.
theorem sound_items {item : Rule α} {P : Span α → Prop} (hi : item.Sound bound P)
    (hne : ∀ s, P s → s.tokens ≠ []) (what : ListItem) (count : Nat) {as : List α}
    (hbound : tokens.length ≤ bound) (hrounds : tokens.length < rounds)
    (h : items item what rounds count stop tokens = ⟨some as, rest, errors⟩) :
    ∃ spans w, tokens = w ++ rest ∧ (∀ s ∈ spans, P s) ∧
      Listed what count spans ⟨w, as, errors⟩ := by
  induction rounds generalizing count tokens as errors with
  | zero => omega
  | succ rounds ih =>
    rw [items_succ, bind_eq_some] at h
    obtain ⟨_, middle, remarks, others, hr, h, rfl⟩ := h
    obtain ⟨rfl, rfl⟩ := remark_eq_some.1 hr
    rw [bind_eq_some] at h
    obtain ⟨a, after, first, others, ha, h, rfl⟩ := h
    obtain ⟨w, rfl, hw⟩ := hi _ _ _ _ _ hbound ha
    rw [excess_append what count (hne _ hw), ← List.append_assoc]
    rw [bind_eq_some] at h
    obtain ⟨_ | comma, middle, none, others, hc, h, rfl⟩ := h
    · obtain ⟨rfl, -, rfl⟩ := take?_eq_none.1 hc
      obtain ⟨rfl, rfl, rfl⟩ := pure_eq_some.1 h
      exact ⟨[⟨w, a, first⟩], w, rfl, by simpa using hw, by simpa using Listed.last ⟨w, a, first⟩⟩
    · obtain ⟨rfl, hk, rfl⟩ := take?_eq_some.1 hc
      rw [bind_eq_some] at h
      obtain ⟨bs, middle', second, others, hb, h, rfl⟩ := h
      obtain ⟨rfl, rfl, rfl⟩ := pure_eq_some.1 h
      simp only [List.length_append, List.length_cons] at hbound hrounds
      obtain ⟨spans, v, rfl, hs, hl⟩ := ih (count + 1) (by omega) (by omega) hb
      refine ⟨⟨w, a, first⟩ :: spans, w ++ comma :: v, by simp, by simpa using ⟨hw, hs⟩, ?_⟩
      simpa using Listed.next ⟨w, a, first⟩ (by simpa using hk) hl

theorem sound_commaList {item : Rule α} {P : Span α → Prop} (hi : item.Sound bound P)
    (hne : ∀ s, P s → s.tokens ≠ []) (what : ListItem) {as : List α}
    (hbound : tokens.length ≤ bound) (hrounds : tokens.length ≤ rounds)
    (h : commaList item what rounds stop tokens = ⟨some as, rest, errors⟩) :
    ∃ spans w, tokens = w ++ rest ∧ (∀ s ∈ spans, P s) ∧
      InParens what spans ⟨w, as, errors⟩ := by
  rw [commaList, bind_eq_some] at h
  obtain ⟨kind, middle, first, second, hp, h, rfl⟩ := h
  obtain ⟨-, rfl, rfl⟩ := peek_eq_some.1 hp
  split at h
  · obtain ⟨rfl, rfl, rfl⟩ := pure_eq_some.1 h
    exact ⟨[], [], rfl, by simp, .inl ⟨rfl, rfl⟩⟩
  · obtain ⟨spans, w, rfl, hs, hl⟩ := sound_items hi hne what 0 hbound (by omega) h
    exact ⟨spans, w, rfl, hs, .inr hl⟩

-- A round without an operator is the last one, so that any number of rounds will do.
theorem sound_chainFrom {operand : Rule Expr} {P : Span Expr → Prop} (ho : operand.Sound bound P)
    (node : Expr → Token → Expr → Expr) (kinds : List TokenKind) {left e : Expr}
    (hbound : tokens.length ≤ bound)
    (h : chainFrom operand node kinds rounds left stop tokens = ⟨some e, rest, errors⟩) :
    ∃ links : List Link, tokens = links.flatMap Link.tokens ++ rest ∧
      (∀ l ∈ links, l.operator.kind ∈ kinds) ∧ (∀ l ∈ links, P l.operand) ∧
      e = links.foldl (fun e l => node e l.operator l.operand.tree) left ∧
      errors = links.flatMap (·.operand.errors) := by
  induction rounds generalizing left tokens errors with
  | zero =>
    obtain ⟨rfl, rfl, rfl⟩ := pure_eq_some.1 h
    exact ⟨[], rfl, by simp, by simp, rfl, rfl⟩
  | succ rounds ih =>
    rw [chainFrom, bind_eq_some] at h
    obtain ⟨_ | operator, middle, first, others, ht, h, rfl⟩ := h
    · obtain ⟨rfl, -, rfl⟩ := take?_eq_none.1 ht
      obtain ⟨rfl, rfl, rfl⟩ := pure_eq_some.1 h
      exact ⟨[], rfl, by simp, by simp, rfl, rfl⟩
    · obtain ⟨rfl, hk, rfl⟩ := take?_eq_some.1 ht
      rw [bind_eq_some] at h
      obtain ⟨right, middle, first, others, hr, h, rfl⟩ := h
      simp only [List.length_cons] at hbound
      obtain ⟨w, rfl, hw⟩ := ho _ _ _ _ _ (by omega) hr
      simp only [List.length_append] at hbound
      obtain ⟨links, rfl, hks, hls, rfl, rfl⟩ := ih (by omega) h
      exact ⟨⟨operator, w, right, first⟩ :: links, by simp [Link.tokens], by simpa using ⟨hk, hks⟩,
        by simpa using ⟨hw, hls⟩, rfl, by simp⟩

theorem sound_chain {operand : Rule Expr} {c : Chain} (rounds : Nat)
    (ho : operand.Sound bound (Reads c.operand)) :
    (chain operand c.node c.kinds rounds).Sound bound (Reads (.chain c)) := by
  intro stop tokens e rest errors hbound h
  rw [chain, bind_eq_some] at h
  obtain ⟨left, middle, first, others, hl, h, rfl⟩ := h
  obtain ⟨w, rfl, hw⟩ := ho _ _ _ _ _ hbound hl
  simp only [List.length_append] at hbound
  obtain ⟨links, rfl, hks, hls, rfl, rfl⟩ := sound_chainFrom ho c.node c.kinds (by omega) h
  exact ⟨_, (List.append_assoc ..).symm, .chain hw hks hls⟩

theorem sound_primary {nested : Rule Expr} (hn : nested.Sound bound (Reads .assignment)) :
    (primary nested).Sound (bound + 1) (Reads .primary) := by
  intro stop tokens e rest errors hbound h
  rw [primary, bind_eq_some] at h
  obtain ⟨_ | t, middle, first, others, ht, h, rfl⟩ := h
  · simp at h
  obtain ⟨rfl, hk, rfl⟩ := take?_eq_some.1 ht
  simp only [List.length_cons] at hbound
  dsimp only at h
  have hliteral : ∀ value, constant? t = some value →
      (pure (.literal value) : Rule Expr) stop middle = ⟨some e, rest, others⟩ →
      ∃ w, t :: middle = w ++ rest ∧ Reads .primary ⟨w, e, [] ++ others⟩ := by
    rintro value hv h
    obtain ⟨rfl, rfl, rfl⟩ := pure_eq_some.1 h
    exact ⟨[t], rfl, .literal hv⟩
  simp only [List.mem_cons, List.not_mem_nil, or_false] at hk
  obtain hk | hk | hk | hk | hk | hk | hk := hk <;> simp only [hk] at h
  · exact hliteral _ (by simp [constant?, hk]) h
  · exact hliteral _ (by simp [constant?, hk]) h
  · exact hliteral _ (by simp [constant?, hk]) h
  · exact hliteral _ (by simp [constant?, hk]) h
  · exact hliteral _ (by simp [constant?, hk]) h
  · obtain ⟨rfl, rfl, rfl⟩ := pure_eq_some.1 h
    exact ⟨[t], rfl, .name hk⟩
  · rw [bind_eq_some] at h
    obtain ⟨inner, middle, first, others, hi, h, rfl⟩ := h
    obtain ⟨w, rfl, hw⟩ := hn _ _ _ _ _ (by omega) hi
    rw [bind_eq_some] at h
    obtain ⟨closing, middle, none, others, hc, h, rfl⟩ := h
    obtain ⟨rfl, hck, rfl⟩ := expect_eq_some.1 hc
    obtain ⟨rfl, rfl, rfl⟩ := pure_eq_some.1 h
    exact ⟨t :: (w ++ [closing]), by simp, by simpa using Reads.grouping hk hck hw⟩

theorem sound_callsFrom {nested : Rule Expr} (hn : nested.Sound bound (Reads .assignment))
    {callee e : Expr} (hbound : tokens.length ≤ bound) (hrounds : tokens.length ≤ rounds)
    (h : callsFrom nested rounds callee stop tokens = ⟨some e, rest, errors⟩) :
    ∃ calls : List Application, tokens = calls.flatMap Application.tokens ++ rest ∧
      (∀ c ∈ calls, c.Proper) ∧ (∀ c ∈ calls, ∀ a ∈ c.arguments, Reads .assignment a) ∧
      e = calls.foldl Application.node callee ∧ errors = calls.flatMap (·.inner.errors) := by
  induction rounds generalizing callee tokens errors with
  | zero =>
    obtain ⟨rfl, rfl, rfl⟩ := pure_eq_some.1 h
    exact ⟨[], rfl, by simp, by simp, rfl, rfl⟩
  | succ rounds ih =>
    rw [callsFrom, bind_eq_some] at h
    obtain ⟨_ | opening, middle, first, others, ht, h, rfl⟩ := h
    · obtain ⟨rfl, -, rfl⟩ := take?_eq_none.1 ht
      obtain ⟨rfl, rfl, rfl⟩ := pure_eq_some.1 h
      exact ⟨[], rfl, by simp, by simp, rfl, rfl⟩
    · obtain ⟨rfl, hk, rfl⟩ := take?_eq_some.1 ht
      simp only [List.length_cons] at hbound hrounds
      rw [bind_eq_some] at h
      obtain ⟨as, middle, first, others, ha, h, rfl⟩ := h
      obtain ⟨spans, w, rfl, hs, hw⟩ :=
        sound_commaList hn (fun _ h => h.ne_nil) .arguments (by omega) (by omega) ha
      rw [bind_eq_some] at h
      obtain ⟨closing, middle, none, others, hc, h, rfl⟩ := h
      obtain ⟨rfl, hck, rfl⟩ := expect_eq_some.1 hc
      simp only [List.length_append, List.length_cons] at hbound hrounds
      obtain ⟨calls, rfl, hp, hargs, rfl, rfl⟩ := ih (by omega) (by omega) h
      refine ⟨⟨opening, spans, ⟨w, as, first⟩, closing⟩ :: calls, by simp [Application.tokens],
        ?_, by simpa using ⟨hs, hargs⟩, rfl, by simp⟩
      simpa using ⟨⟨by simpa using hk, hw, hck⟩, hp⟩

theorem sound_call {nested : Rule Expr} (hn : nested.Sound bound (Reads .assignment)) :
    (call nested bound).Sound (bound + 1) (Reads .call) := by
  intro stop tokens e rest errors hbound h
  rw [call, bind_eq_some] at h
  obtain ⟨callee, middle, first, others, hc, h, rfl⟩ := h
  obtain ⟨w, rfl, hw⟩ := sound_primary hn _ _ _ _ _ hbound hc
  have hlen := List.length_pos_iff.2 hw.ne_nil
  simp only [List.length_append] at hbound hlen
  obtain ⟨calls, rfl, hp, ha, rfl, rfl⟩ := sound_callsFrom hn (by omega) (by omega) h
  exact ⟨_, (List.append_assoc ..).symm, .call hw hp ha⟩

theorem sound_unary {nested : Rule Expr} (hn : nested.Sound bound (Reads .assignment)) :
    (unary nested bound).Sound (bound + 1) (Reads .unary) := by
  intro stop tokens e rest errors hbound h
  rw [unary, bind_eq_some] at h
  obtain ⟨operators, middle, first, others, ho, h, rfl⟩ := h
  obtain ⟨hoperators, hmiddle, rfl⟩ := takeAll_eq_some.1 ho
  have hkinds : ∀ t ∈ operators, t.kind ∈ [.bang, .minus] := by
    intro t ht
    rw [← hoperators] at ht
    simpa using List.mem_takeWhile_imp ht
  obtain rfl : tokens = operators ++ middle := by
    rw [← hoperators, ← hmiddle, List.takeWhile_append_dropWhile]
  simp only [List.length_append] at hbound
  rw [bind_eq_some] at h
  obtain ⟨operand, middle', first, others, hc, h, rfl⟩ := h
  obtain ⟨w, rfl, hw⟩ := sound_call hn _ _ _ _ _ (by omega) hc
  obtain ⟨rfl, rfl, rfl⟩ := pure_eq_some.1 h
  exact ⟨operators ++ w, (List.append_assoc ..).symm, by simpa using Reads.unary hkinds hw⟩

theorem sound_level {nested : Rule Expr} (hn : nested.Sound bound (Reads .assignment))
    (c : Chain) : (levelRule nested bound (.chain c)).Sound (bound + 1) (Reads (.chain c)) := by
  have hfactor : (factor nested bound).Sound (bound + 1) (Reads (.chain .factor)) :=
    sound_chain (c := .factor) bound (sound_unary hn)
  have hterm : (term nested bound).Sound (bound + 1) (Reads (.chain .term)) :=
    sound_chain (c := .term) bound hfactor
  have hcomparison : (comparison nested bound).Sound (bound + 1) (Reads (.chain .comparison)) :=
    sound_chain (c := .comparison) bound hterm
  have hequality : (equality nested bound).Sound (bound + 1) (Reads (.chain .equality)) :=
    sound_chain (c := .equality) bound hcomparison
  have hconjunction : (conjunction nested bound).Sound (bound + 1) (Reads (.chain .conjunction)) :=
    sound_chain (c := .conjunction) bound hequality
  have hdisjunction : (disjunction nested bound).Sound (bound + 1) (Reads (.chain .disjunction)) :=
    sound_chain (c := .disjunction) bound hconjunction
  cases c <;> assumption

theorem sound_assignment {nested : Rule Expr} (hn : nested.Sound bound (Reads .assignment)) :
    (assignment nested bound).Sound (bound + 1) (Reads .assignment) := by
  intro stop tokens e rest errors hbound h
  rw [assignment, bind_eq_some] at h
  obtain ⟨target, middle, first, others, ht, h, rfl⟩ := h
  obtain ⟨w, rfl, hw⟩ := sound_level hn .disjunction _ _ _ _ _ hbound ht
  rw [bind_eq_some] at h
  obtain ⟨_ | equal, middle, none, others, he, h, rfl⟩ := h
  · obtain ⟨rfl, -, rfl⟩ := take?_eq_none.1 he
    obtain ⟨rfl, rfl, rfl⟩ := pure_eq_some.1 h
    exact ⟨w, rfl, by simpa using Reads.plain hw⟩
  obtain ⟨rfl, hk, rfl⟩ := take?_eq_some.1 he
  simp only [List.length_append, List.length_cons] at hbound
  rw [bind_eq_some] at h
  obtain ⟨value, middle, second, others, hr, h, rfl⟩ := h
  obtain ⟨v, rfl, hv⟩ := hn _ _ _ _ _ (by omega) hr
  have hk : equal.kind = .equal := by simpa using hk
  split at h
  · obtain ⟨rfl, rfl, rfl⟩ := pure_eq_some.1 h
    exact ⟨w ++ equal :: v, by simp, by simpa using Reads.assign hw rfl hk hv⟩
  · next hnot =>
    rw [bind_eq_some] at h
    obtain ⟨_, middle, third, others, hc, h, rfl⟩ := h
    obtain ⟨rfl, rfl⟩ := complain_eq_some.1 hc
    obtain ⟨rfl, rfl, rfl⟩ := pure_eq_some.1 h
    exact ⟨w ++ equal :: v, by simp, by simpa using Reads.misassign hw hnot hk hv⟩

-- Each level of nesting reads a token, so that a depth of the number of tokens is enough.
theorem sound_expression (depth : Nat) : (expression depth).Sound depth (Reads .assignment) := by
  induction depth with
  | zero => exact fun _ _ _ _ _ _ h => absurd h fail_eq_some
  | succ depth ih => exact sound_assignment ih

end

end Lox.Syntax
