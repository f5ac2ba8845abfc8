import Lox.Proofs.Syntax.Sound
import Lox.Proofs.Syntax.Stable

namespace Lox.Syntax

open Rule

variable {bound depth : Nat}

theorem sound_optionalExpression (terminator : TokenKind) :
    (optionalExpression terminator depth).Sound depth ReadsOptional := by
  intro stop tokens a rest errors hbound h
  rw [optionalExpression, bind_eq_some] at h
  obtain ⟨kind, middle, first, others, hp, h, rfl⟩ := h
  obtain ⟨-, rfl, rfl⟩ := peek_eq_some.1 hp
  split at h
  · obtain ⟨rfl, rfl, rfl⟩ := pure_eq_some.1 h
    exact ⟨[], rfl, .absent⟩
  · rw [bind_eq_some] at h
    obtain ⟨e, middle, first, others, he, h, rfl⟩ := h
    obtain ⟨w, rfl, hw⟩ := sound_expression depth _ _ _ _ _ hbound he
    obtain ⟨rfl, rfl, rfl⟩ := pure_eq_some.1 h
    exact ⟨w, rfl, by simpa using ReadsOptional.present hw⟩

theorem sound_expressionStatement : (expressionStatement depth).Sound depth ReadsBare := by
  intro stop tokens a rest errors hbound h
  rw [expressionStatement, bind_eq_some] at h
  obtain ⟨e, middle, first, others, he, h, rfl⟩ := h
  obtain ⟨w, rfl, hw⟩ := sound_expression depth _ _ _ _ _ hbound he
  rw [bind_eq_some] at h
  obtain ⟨semicolon, middle, none, others, hs, h, rfl⟩ := h
  obtain ⟨rfl, hk, rfl⟩ := expect_eq_some.1 hs
  obtain ⟨rfl, rfl, rfl⟩ := pure_eq_some.1 h
  exact ⟨w ++ [semicolon], by simp, by simpa using ReadsBare.mk hw hk⟩

theorem sound_condition (paren close : SyntaxFault) :
    (condition paren close depth).Sound depth ReadsCondition := by
  intro stop tokens a rest errors hbound h
  rw [condition, bind_eq_some] at h
  obtain ⟨opening, middle, none, others, ho, h, rfl⟩ := h
  obtain ⟨rfl, hok, rfl⟩ := expect_eq_some.1 ho
  rw [List.length_cons] at hbound
  rw [bind_eq_some] at h
  obtain ⟨e, middle, first, others, he, h, rfl⟩ := h
  obtain ⟨w, rfl, hw⟩ := sound_expression depth _ _ _ _ _ (by omega) he
  rw [bind_eq_some] at h
  obtain ⟨closing, middle, none, others, hc, h, rfl⟩ := h
  obtain ⟨rfl, hck, rfl⟩ := expect_eq_some.1 hc
  obtain ⟨rfl, rfl, rfl⟩ := pure_eq_some.1 h
  exact ⟨opening :: (w ++ [closing]), by simp, by simpa using ReadsCondition.mk hok hw hck⟩

theorem sound_variableDeclaration : (variableDeclaration depth).Sound depth ReadsVariable := by
  intro stop tokens a rest errors hbound h
  rw [variableDeclaration, bind_eq_some] at h
  obtain ⟨name, middle, none, others, hn, h, rfl⟩ := h
  obtain ⟨rfl, hnk, rfl⟩ := expect_eq_some.1 hn
  rw [List.length_cons] at hbound
  rw [bind_eq_some] at h
  obtain ⟨_ | equal, middle, none, others, he, h, rfl⟩ := h
  · obtain ⟨rfl, -, rfl⟩ := take?_eq_none.1 he
    dsimp only at h
    rw [pure_bind, bind_eq_some] at h
    obtain ⟨semicolon, middle, none, others, hs, h, rfl⟩ := h
    obtain ⟨rfl, hk, rfl⟩ := expect_eq_some.1 hs
    obtain ⟨rfl, rfl, rfl⟩ := pure_eq_some.1 h
    exact ⟨[name, semicolon], rfl, by simpa using ReadsVariable.plain hnk hk⟩
  · obtain ⟨rfl, hek, rfl⟩ := take?_eq_some.1 he
    rw [List.length_cons] at hbound
    dsimp only at h
    rw [bind_eq_some] at h
    obtain ⟨value, middle, first, others, hv, h, rfl⟩ := h
    obtain ⟨e, he, rfl⟩ := map_eq_some.1 hv
    obtain ⟨w, rfl, hw⟩ := sound_expression depth _ _ _ _ _ (by omega) he
    rw [bind_eq_some] at h
    obtain ⟨semicolon, middle, none, others, hs, h, rfl⟩ := h
    obtain ⟨rfl, hk, rfl⟩ := expect_eq_some.1 hs
    obtain ⟨rfl, rfl, rfl⟩ := pure_eq_some.1 h
    refine ⟨name :: equal :: (w ++ [semicolon]), by simp, ?_⟩
    simpa using ReadsVariable.initialized hnk (by simpa using hek) hw hk

theorem sound_forInitializer : (forInitializer depth).Sound depth ReadsInitializer := by
  intro stop tokens a rest errors hbound h
  rw [forInitializer, bind_eq_some] at h
  obtain ⟨_ | t, middle, none, others, ht, h, rfl⟩ := h
  · obtain ⟨rfl, -, rfl⟩ := take?_eq_none.1 ht
    obtain ⟨s, hs, rfl⟩ := map_eq_some.1 h
    obtain ⟨w, rfl, hw⟩ := sound_expressionStatement _ _ _ _ _ hbound hs
    exact ⟨w, rfl, by simpa using ReadsInitializer.bare hw⟩
  · obtain ⟨rfl, hk, rfl⟩ := take?_eq_some.1 ht
    rw [List.length_cons] at hbound
    dsimp only at h
    split at h
    · next hvar =>
      obtain ⟨s, hs, rfl⟩ := map_eq_some.1 h
      obtain ⟨w, rfl, hw⟩ := sound_variableDeclaration _ _ _ _ _ (by omega) hs
      exact ⟨t :: w, rfl, by simpa using ReadsInitializer.declared hvar hw⟩
    · next hvar =>
      obtain ⟨rfl, rfl, rfl⟩ := pure_eq_some.1 h
      exact ⟨[t], rfl, .absent (by simpa [hvar] using hk)⟩

-- Without errors a statement is read as what it stands for. Where an `else` after it would have
-- belonged to it, there is none.
def SoundStatement (r : Rule Stmt) (slot : Slot) (bound : Nat) : Prop :=
  ∀ stop tokens s rest, tokens.length ≤ bound → r stop tokens = ⟨some s, rest, []⟩ →
    ∃ w tail, tokens = w ++ rest ∧ ReadsStmt slot tail ⟨w, s, []⟩ ∧
      (tail = .dangling → Free [.elseKw] rest)

-- The same for the statements of a block and the brace that closes it.
def SoundBlock (r : Rule (List Stmt)) (bound : Nat) : Prop :=
  ∀ stop tokens ss rest, tokens.length ≤ bound → r stop tokens = ⟨some ss, rest, []⟩ →
    ∃ (body : List (Span Stmt)) (closing : Token),
      tokens = body.flatMap Span.tokens ++ closing :: rest ∧ ss = body.map Span.tree ∧
        body.flatMap Span.errors = [] ∧ (∀ s ∈ body, ReadsStmt .free .dangling s) ∧
        closing.kind = .rightBrace

-- The name of a parameter is a rule's value and all that the rule reads.
theorem sound_parameter (bound : Nat) : (expect .identifier .parameterName).Sound bound
    (fun p => p.tree.kind = .identifier ∧ p = ⟨[p.tree], p.tree, []⟩) := by
  intro stop tokens t rest errors _ h
  obtain ⟨rfl, hk, rfl⟩ := expect_eq_some.1 h
  exact ⟨[t], rfl, hk, rfl⟩

theorem recovering_eq_clean {r : Rule Stmt} (hr : r.Loud) {stop : Token} {tokens rest : List Token}
    {value : Option Stmt} (h : recovering r stop tokens = ⟨some value, rest, []⟩) :
    ∃ s, value = some s ∧ r stop tokens = ⟨some s, rest, []⟩ := by
  have hloud := hr stop tokens
  unfold recovering at h
  split at h
  · next middle errors hrun =>
    obtain ⟨-, -, rfl⟩ := Reading.mk.inj h
    simp [hrun] at hloud
  · next s middle errors hrun =>
    obtain ⟨hv, rfl, rfl⟩ := Reading.mk.inj h
    exact ⟨s, (Option.some.inj hv).symm, hrun⟩

theorem ReadsStmt.dangling {slot : Slot} {tail : Tail} {s : Span Stmt}
    (h : ReadsStmt slot tail s) : ReadsStmt slot .dangling s := by
  cases tail with
  | closed => exact .weaken h
  | dangling => exact h

theorem sound_ifStatement {statement : Rule Stmt} (hs : SoundStatement statement .nested bound)
    (hb : bound ≤ depth) {keyword stop : Token} {tokens rest : List Token} {s : Stmt}
    (hk : keyword.kind = .ifKw) (hbound : tokens.length ≤ bound)
    (h : ifStatement statement depth stop tokens = ⟨some s, rest, []⟩) :
    ∃ w tail, tokens = w ++ rest ∧ ReadsStmt .nested tail ⟨keyword :: w, s, []⟩ ∧
      (tail = .dangling → Free [.elseKw] rest) := by
  rw [ifStatement, bind_eq_clean] at h
  obtain ⟨c, middle, hc, h⟩ := h
  obtain ⟨u, rfl, hu⟩ := sound_condition .ifParen .ifEnd _ _ _ _ _ (Nat.le_trans hbound hb) hc
  rw [List.length_append] at hbound
  rw [bind_eq_clean] at h
  obtain ⟨yes, middle, hy, h⟩ := h
  obtain ⟨v, tail, rfl, hv, htail⟩ := hs _ _ _ _ (by omega) hy
  rw [List.length_append] at hbound
  rw [bind_eq_clean] at h
  obtain ⟨_ | other, middle, ht, h⟩ := h
  · obtain ⟨rfl, hfree, -⟩ := take?_eq_none.1 ht
    obtain ⟨rfl, rfl, -⟩ := pure_eq_some.1 h
    exact ⟨u ++ v, .dangling, by simp, by simpa using ReadsStmt.ifThen hk hu hv.dangling,
      fun _ => hfree⟩
  · obtain ⟨rfl, hok, -⟩ := take?_eq_some.1 ht
    -- the branch before an `else` cannot be one that the `else` would have belonged to
    have hclosed : tail = .closed := by
      cases tail with
      | closed => rfl
      | dangling => exact absurd hok (free_cons.1 (htail rfl))
    subst hclosed
    rw [List.length_cons] at hbound
    rw [bind_eq_clean] at h
    obtain ⟨no, middle, hn, h⟩ := h
    obtain ⟨w, tail, rfl, hw, htail⟩ := hs _ _ _ _ (by omega) hn
    obtain ⟨rfl, rfl, -⟩ := pure_eq_some.1 h
    exact ⟨u ++ v ++ other :: w, tail, by simp,
      by simpa using ReadsStmt.ifElse hk hu hv (by simpa using hok) hw, htail⟩

theorem sound_forStatement {statement : Rule Stmt} (hs : SoundStatement statement .nested bound)
    (hb : bound ≤ depth) {keyword stop : Token} {tokens rest : List Token} {s : Stmt}
    (hk : keyword.kind = .forKw) (hbound : tokens.length ≤ bound)
    (h : forStatement statement depth stop tokens = ⟨some s, rest, []⟩) :
    ∃ w tail, tokens = w ++ rest ∧ ReadsStmt .nested tail ⟨keyword :: w, s, []⟩ ∧
      (tail = .dangling → Free [.elseKw] rest) := by
  rw [forStatement, bind_eq_clean] at h
  obtain ⟨opening, middle, ho, h⟩ := h
  obtain ⟨rfl, hok, -⟩ := expect_eq_some.1 ho
  rw [List.length_cons] at hbound
  rw [bind_eq_clean] at h
  obtain ⟨i, middle, hi, h⟩ := h
  obtain ⟨u, rfl, hu⟩ := sound_forInitializer _ _ _ _ _ (by omega) hi
  rw [List.length_append] at hbound
  rw [bind_eq_clean] at h
  obtain ⟨c, middle, hc, h⟩ := h
  obtain ⟨v, rfl, hv⟩ := sound_optionalExpression .semicolon _ _ _ _ _ (by omega) hc
  rw [List.length_append] at hbound
  rw [bind_eq_clean] at h
  obtain ⟨semicolon, middle, hsemi, h⟩ := h
  obtain ⟨rfl, hsk, -⟩ := expect_eq_some.1 hsemi
  rw [List.length_cons] at hbound
  rw [bind_eq_clean] at h
  obtain ⟨n, middle, hn, h⟩ := h
  obtain ⟨w, rfl, hw⟩ := sound_optionalExpression .rightParen _ _ _ _ _ (by omega) hn
  rw [List.length_append] at hbound
  rw [bind_eq_clean] at h
  obtain ⟨closing, middle, hclose, h⟩ := h
  obtain ⟨rfl, hck, -⟩ := expect_eq_some.1 hclose
  rw [List.length_cons] at hbound
  rw [bind_eq_clean] at h
  obtain ⟨body, middle, hbody, h⟩ := h
  obtain ⟨x, tail, rfl, hx, htail⟩ := hs _ _ _ _ (by omega) hbody
  obtain ⟨rfl, rfl, -⟩ := pure_eq_some.1 h
  refine ⟨opening :: (u ++ v ++ semicolon :: (w ++ closing :: x)), tail, by simp, ?_, htail⟩
  simpa using ReadsStmt.forLoop hk hok hu hv hsk hw hck hx

theorem sound_statementWith {nested : Rule Stmt} {block : Rule (List Stmt)}
    (hn : SoundStatement nested .nested bound) (hblock : SoundBlock block bound) :
    SoundStatement (statementWith nested block (bound + 1)) .nested (bound + 1) := by
  intro stop tokens s rest hbound h
  rw [statementWith, bind_eq_clean] at h
  obtain ⟨_ | t, middle, ht, h⟩ := h
  · obtain ⟨rfl, -, -⟩ := take?_eq_none.1 ht
    obtain ⟨w, rfl, hw⟩ := sound_expressionStatement _ _ _ _ _ hbound h
    exact ⟨w, .closed, rfl, .bare hw, by simp⟩
  obtain ⟨rfl, hk, -⟩ := take?_eq_some.1 ht
  rw [List.length_cons] at hbound
  simp only [List.mem_cons, List.not_mem_nil, or_false] at hk
  obtain hk | hk | hk | hk | hk | hk | hk := hk <;> simp only [hk] at h
  · obtain ⟨w, tail, rfl, hw, htail⟩ := sound_forStatement hn (by omega) hk (by omega) h
    exact ⟨t :: w, tail, rfl, hw, htail⟩
  · obtain ⟨w, tail, rfl, hw, htail⟩ := sound_ifStatement hn (by omega) hk (by omega) h
    exact ⟨t :: w, tail, rfl, hw, htail⟩
  · rw [printStatement, bind_eq_clean] at h
    obtain ⟨e, middle, he, h⟩ := h
    obtain ⟨w, rfl, hw⟩ := sound_expression _ _ _ _ _ _ (by omega) he
    rw [bind_eq_clean] at h
    obtain ⟨semicolon, middle, hs, h⟩ := h
    obtain ⟨rfl, hsk, -⟩ := expect_eq_some.1 hs
    obtain ⟨rfl, rfl, -⟩ := pure_eq_some.1 h
    exact ⟨t :: (w ++ [semicolon]), .closed, by simp, .print hk hw hsk, by simp⟩
  · rw [returnStatement, bind_eq_clean] at h
    obtain ⟨e, middle, he, h⟩ := h
    obtain ⟨w, rfl, hw⟩ := sound_optionalExpression .semicolon _ _ _ _ _ (by omega) he
    rw [bind_eq_clean] at h
    obtain ⟨semicolon, middle, hs, h⟩ := h
    obtain ⟨rfl, hsk, -⟩ := expect_eq_some.1 hs
    obtain ⟨rfl, rfl, -⟩ := pure_eq_some.1 h
    exact ⟨t :: (w ++ [semicolon]), .closed, by simp, .returnFrom hk hw hsk, by simp⟩
  · rw [whileStatement, bind_eq_clean] at h
    obtain ⟨c, middle, hc, h⟩ := h
    obtain ⟨u, rfl, hu⟩ := sound_condition .whileParen .whileEnd _ _ _ _ _ (by omega) hc
    rw [List.length_append] at hbound
    rw [bind_eq_clean] at h
    obtain ⟨body, middle, hb, h⟩ := h
    obtain ⟨v, tail, rfl, hv, htail⟩ := hn _ _ _ _ (by omega) hb
    obtain ⟨rfl, rfl, -⟩ := pure_eq_some.1 h
    exact ⟨t :: (u ++ v), tail, by simp, by simpa using ReadsStmt.loop hk hu hv, htail⟩
  · rw [breakStatement, bind_eq_clean] at h
    obtain ⟨semicolon, middle, hs, h⟩ := h
    obtain ⟨rfl, hsk, -⟩ := expect_eq_some.1 hs
    obtain ⟨rfl, rfl, -⟩ := pure_eq_some.1 h
    exact ⟨[t, semicolon], .closed, rfl, .breakLoop hk hsk, by simp⟩
  · obtain ⟨ss, hss, rfl⟩ := map_eq_some.1 h
    obtain ⟨body, closing, rfl, rfl, he, hb, hc⟩ := hblock _ _ _ _ (by omega) hss
    refine ⟨t :: (body.flatMap Span.tokens ++ [closing]), .closed, by simp, ?_, by simp⟩
    have hread := ReadsStmt.block hk hb hc
    rwa [he] at hread

theorem sound_plainDeclaration {statement : Rule Stmt} {block : Rule (List Stmt)}
    (hs : SoundStatement statement .nested bound) (hblock : SoundBlock block (bound - 1)) :
    SoundStatement (plainDeclaration statement block bound) .free bound := by
  intro stop tokens s rest hbound h
  rw [plainDeclaration, bind_eq_clean] at h
  obtain ⟨_ | t, middle, ht, h⟩ := h
  · obtain ⟨rfl, -, -⟩ := take?_eq_none.1 ht
    obtain ⟨w, tail, rfl, hw, htail⟩ := hs _ _ _ _ hbound h
    exact ⟨w, tail, rfl, .free hw, htail⟩
  obtain ⟨rfl, hk, -⟩ := take?_eq_some.1 ht
  rw [List.length_cons] at hbound
  dsimp only at h
  split at h
  · next hfun =>
    rw [functionDeclaration, bind_eq_clean] at h
    obtain ⟨name, middle, hn, h⟩ := h
    obtain ⟨rfl, hnk, -⟩ := expect_eq_some.1 hn
    rw [bind_eq_clean] at h
    obtain ⟨opening, middle, ho, h⟩ := h
    obtain ⟨rfl, hok, -⟩ := expect_eq_some.1 ho
    rw [List.length_cons, List.length_cons] at hbound
    rw [bind_eq_clean] at h
    obtain ⟨parameters, middle, hp, h⟩ := h
    obtain ⟨items, u, rfl, hitems, hu⟩ := sound_commaList (sound_parameter bound)
      (fun s hs => by rw [hs.2]; simp) .parameters (by omega) (by omega) hp
    rw [List.length_append] at hbound
    rw [bind_eq_clean] at h
    obtain ⟨closing, middle, hc, h⟩ := h
    obtain ⟨rfl, hck, -⟩ := expect_eq_some.1 hc
    rw [bind_eq_clean] at h
    obtain ⟨brace, middle, hbrace, h⟩ := h
    obtain ⟨rfl, hbk, -⟩ := expect_eq_some.1 hbrace
    rw [List.length_cons, List.length_cons] at hbound
    rw [bind_eq_clean] at h
    obtain ⟨ss, middle, hbody, h⟩ := h
    obtain ⟨body, last, rfl, rfl, he, hb, hl⟩ := hblock _ _ _ _ (by omega) hbody
    obtain ⟨rfl, rfl, -⟩ := pure_eq_some.1 h
    refine ⟨t :: name :: opening :: (u ++ closing :: brace :: (body.flatMap Span.tokens ++ [last])),
      .closed, by simp, ?_, by simp⟩
    have hread := ReadsStmt.function hfun hnk hok hitems hu hck hbk hb hl
    rwa [he] at hread
  · next hfun =>
    obtain ⟨w, rfl, hw⟩ := sound_variableDeclaration _ _ _ _ _ (by omega) h
    exact ⟨t :: w, .closed, rfl, .declared (by simpa [hfun] using hk) hw, by simp⟩

-- An error-free declaration is not one that was given up and left out.
theorem sound_declarations {statement : Rule Stmt} {block : Rule (List Stmt)}
    (hloud : (plainDeclaration statement block depth).Loud)
    (hs : SoundStatement (plainDeclaration statement block depth) .free bound) (braceEnds : Bool)
    {rounds : Nat} {stop : Token} {tokens rest : List Token} {ss : List Stmt}
    (hbound : tokens.length ≤ bound) (hrounds : tokens.length ≤ rounds)
    (h : declarations (declarationWith statement block depth) braceEnds rounds stop tokens =
      ⟨some ss, rest, []⟩) :
    ∃ body : List (Span Stmt), tokens = body.flatMap Span.tokens ++ rest ∧
      ss = body.map Span.tree ∧ body.flatMap Span.errors = [] ∧
      (∀ s ∈ body, ReadsStmt .free .dangling s) ∧ (braceEnds = false → rest = []) := by
  induction rounds generalizing tokens ss with
  | zero =>
    obtain ⟨rfl, rfl, -⟩ := pure_eq_some.1 h
    have hnil : tokens = [] := List.length_eq_zero_iff.1 (by omega)
    exact ⟨[], rfl, rfl, rfl, by simp, fun _ => hnil⟩
  | succ rounds ih =>
    rw [declarations, bind_eq_clean] at h
    obtain ⟨next, middle, hp, h⟩ := h
    obtain ⟨rfl, rfl, -⟩ := peek_eq_some.1 hp
    split at h
    · next hend =>
      obtain ⟨rfl, rfl, -⟩ := pure_eq_some.1 h
      refine ⟨[], rfl, rfl, rfl, by simp, fun hb => ?_⟩
      simpa [hb] using hend
    · rw [bind_eq_clean] at h
      obtain ⟨first, middle, hf, h⟩ := h
      rw [bind_eq_clean] at h
      obtain ⟨others, middle', ho, h⟩ := h
      obtain ⟨rfl, rfl, -⟩ := pure_eq_some.1 h
      obtain ⟨s, rfl, hrun⟩ := recovering_eq_clean hloud hf
      obtain ⟨w, tail, rfl, hw, -⟩ := hs _ _ _ _ hbound hrun
      have hpos : 0 < w.length := List.length_pos_iff.2 hw.ne_nil
      rw [List.length_append] at hbound hrounds
      obtain ⟨body, rfl, rfl, he, hbody, hend⟩ := ih (by omega) (by omega) ho
      exact ⟨⟨w, s, []⟩ :: body, by simp, by simp, by simpa using he,
        by simpa using ⟨hw.dangling, hbody⟩, hend⟩

theorem sound_statement_and_block (depth : Nat) :
    SoundStatement (statement depth) .nested depth ∧ SoundBlock (block depth) depth := by
  induction depth with
  | zero =>
    exact ⟨fun _ _ _ _ _ h => absurd h fail_eq_some, fun _ _ _ _ _ h => absurd h fail_eq_some⟩
  | succ depth ih =>
    have hstatement : SoundStatement (statement (depth + 1)) .nested (depth + 1) :=
      sound_statementWith ih.1 ih.2
    refine ⟨hstatement, fun stop tokens ss rest hbound h => ?_⟩
    have hloud := (stable_loud.statement_and_block (depth + 1)).1
    have hblockLoud := (stable_loud.statement_and_block depth).2
    rw [block, blockWith, bind_eq_clean] at h
    obtain ⟨ss', middle, hd, h⟩ := h
    obtain ⟨body, rfl, rfl, he, hbody, -⟩ := sound_declarations
      (stable_loud.plainDeclaration hloud hblockLoud (depth + 1))
      (sound_plainDeclaration hstatement ih.2) true hbound hbound hd
    rw [bind_eq_clean] at h
    obtain ⟨closing, middle, hc, h⟩ := h
    obtain ⟨rfl, hk, -⟩ := expect_eq_some.1 hc
    obtain ⟨rfl, rfl, -⟩ := pure_eq_some.1 h
    exact ⟨body, closing, rfl, rfl, he, hbody, hk⟩

-- An accepted program is declarations and nothing else.
theorem sound_program {depth : Nat} {stop : Token} {tokens rest : List Token} {ss : List Stmt}
    (hbound : tokens.length ≤ depth)
    (h : declarations (declaration depth) false depth stop tokens = ⟨some ss, rest, []⟩) :
    ∃ body : List (Span Stmt), tokens = body.flatMap Span.tokens ∧ ss = body.map Span.tree ∧
      body.flatMap Span.errors = [] ∧ ∀ s ∈ body, ReadsStmt .free .dangling s := by
  obtain ⟨hs, hb⟩ := sound_statement_and_block depth
  obtain ⟨hl, hbl⟩ := stable_loud.statement_and_block depth
  have hb' : SoundBlock (block depth) (depth - 1) :=
    fun stop tokens ss rest hlen => hb stop tokens ss rest (by omega)
  obtain ⟨body, rfl, rfl, he, hbody, hend⟩ := sound_declarations
    (stable_loud.plainDeclaration hl hbl depth) (sound_plainDeclaration hs hb') false hbound
    hbound h
  exact ⟨body, by simp [hend], rfl, he, hbody⟩

end Lox.Syntax
