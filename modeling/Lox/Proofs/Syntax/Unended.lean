import Lox.Proofs.Syntax.Recovered

namespace Lox.Syntax

open Rule

-- What is found to be wrong with a statement where its semicolon should have been.
def endFaults : List SyntaxFault :=
  [.expressionEnd, .variableEnd, .printEnd, .returnEnd, .breakEnd, .noExpression]

-- Tokens that end in a semicolon, and the same tokens without it.
def Cut (tokens written : List Token) : Prop :=
  ∃ semicolon, tokens = written ++ [semicolon] ∧ semicolon.kind = .semicolon

-- The rule reads some tokens and gives up at the one behind them, with an error there.
def Rule.Misses {α : Type} (r : Rule α) (stop : Token) (written : List Token) (first : Token)
    (rest : List Token) (errors : List SyntaxError) : Prop :=
  ∃ fault ∈ endFaults, r stop (written ++ first :: rest) =
    ⟨none, first :: rest, errors ++ [⟨first, fault⟩]⟩

theorem cut_concat {tokens written : List Token} {last : Token} (h : Cut (tokens ++ [last]) written) :
    written = tokens ∧ last.kind = .semicolon := by
  obtain ⟨semicolon, htokens, hk⟩ := h
  obtain ⟨rfl, rfl⟩ := List.append_singleton_inj.1 htokens
  exact ⟨rfl, hk⟩

theorem cut_append {before tokens written : List Token} (hne : tokens ≠ [])
    (h : Cut (before ++ tokens) written) : ∃ w, written = before ++ w ∧ Cut tokens w := by
  obtain ⟨semicolon, htokens, hk⟩ := h
  obtain rfl | ⟨w, last, rfl⟩ := List.eq_nil_or_concat tokens
  · exact absurd rfl hne
  · rw [List.concat_eq_append, ← List.append_assoc] at htokens
    obtain ⟨rfl, rfl⟩ := List.append_singleton_inj.1 htokens
    exact ⟨w, rfl, last, List.concat_eq_append, hk⟩

section

variable {α β : Type} {stop first : Token} {written rest : List Token}
  {errors errors' : List SyntaxError}

theorem free_of_starts (h : startsStatement first = true) {kinds : List TokenKind}
    (hk : ∀ kind ∈ [.classKw, .funKw, .varKw, .forKw, .ifKw, .whileKw, .printKw, .returnKw],
      kind ∉ kinds) : Free kinds (first :: rest) :=
  free_cons.2 (hk _ (by simpa [startsStatement] using h))

theorem Rule.Misses.bind {r : Rule α} (h : r.Misses stop written first rest errors)
    (f : α → Rule β) : (r >>= f).Misses stop written first rest errors := by
  obtain ⟨fault, hfault, hrun⟩ := h
  exact ⟨fault, hfault, run_bind_none f hrun⟩

theorem Rule.Misses.after {r : Rule α} {f : α → Rule β} {a : α} {before : List Token}
    (hr : r stop (before ++ (written ++ first :: rest)) =
      ⟨some a, written ++ first :: rest, errors⟩)
    (h : (f a).Misses stop written first rest errors') :
    (r >>= f).Misses stop (before ++ written) first rest (errors ++ errors') := by
  obtain ⟨fault, hfault, hrun⟩ := h
  refine ⟨fault, hfault, ?_⟩
  rw [List.append_assoc, run_bind hr, hrun]
  simp

theorem Rule.Misses.cons {r : Rule α} {f : α → Rule β} {a : α} {t : Token}
    (hr : r stop (t :: (written ++ first :: rest)) = ⟨some a, written ++ first :: rest, []⟩)
    (h : (f a).Misses stop written first rest errors) :
    (r >>= f).Misses stop (t :: written) first rest errors :=
  @Misses.after _ _ _ _ _ _ _ _ r f a [t] hr h

theorem Rule.Misses.same {r : Rule α} {f : α → Rule β} {a : α}
    (hr : r stop (written ++ first :: rest) = ⟨some a, written ++ first :: rest, []⟩)
    (h : (f a).Misses stop written first rest errors) :
    (r >>= f).Misses stop written first rest errors :=
  @Misses.after _ _ _ _ _ _ _ _ r f a [] hr h

-- Nothing is left to read in front of the token.
theorem Rule.Misses.last {r : Rule α} {f : α → Rule β} {a : α}
    (hr : r stop (written ++ first :: rest) = ⟨some a, first :: rest, errors⟩)
    (h : (f a).Misses stop [] first rest []) :
    (r >>= f).Misses stop written first rest errors := by
  obtain ⟨fault, hfault, hrun⟩ := h
  refine ⟨fault, hfault, ?_⟩
  rw [List.nil_append] at hrun
  rw [run_bind hr, hrun]
  simp

variable (hfirst : startsStatement first = true)
include hfirst

theorem misses_semicolon {fault : SyntaxFault} (hfault : fault ∈ endFaults) :
    (expect .semicolon fault).Misses stop [] first rest [] :=
  ⟨fault, hfault, expect_free (free_of_starts hfirst (by decide))⟩

theorem misses_expression (depth : Nat) : (expression depth).Misses stop [] first rest [] :=
  ⟨.noExpression, by decide, expression_free (free_of_starts hfirst (by decide)) depth⟩

theorem misses_expression_end {depth : Nat} {value : Span Expr} (hv : Reads .assignment value)
    (hbound : (value.tokens ++ first :: rest).length ≤ depth) {fault : SyntaxFault}
    (hfault : fault ∈ endFaults) (f : Expr → Token → Rule β) :
    (expression depth >>= fun e => expect .semicolon fault >>= f e).Misses stop value.tokens first
      rest value.errors := by
  have hvalue := complete_expression depth stop value (first :: rest) hbound hv
    (free_of_starts hfirst (by decide))
  exact Misses.last hvalue ((misses_semicolon hfirst hfault).bind (f value.tree))

theorem misses_variableDeclaration {depth : Nat} {s : Span Stmt} (hs : ReadsVariable s)
    (hcut : Cut s.tokens written) (hbound : (written ++ first :: rest).length ≤ depth) :
    (variableDeclaration depth).Misses stop written first rest s.errors := by
  cases hs with
  | @plain name semicolon hn hs =>
    obtain ⟨rfl, -⟩ := cut_concat (show Cut ([name] ++ [semicolon]) written from hcut)
    refine Misses.cons (expect_cons hn) ?_
    refine Misses.last (take?_free (free_of_starts hfirst (by decide))) ?_
    dsimp only
    rw [pure_bind]
    exact (misses_semicolon hfirst (by decide)).bind _
  | @initialized name equal semicolon value hn he hv hs =>
    obtain ⟨rfl, -⟩ := cut_concat
      (show Cut ((name :: equal :: value.tokens) ++ [semicolon]) written from hcut)
    simp only [List.cons_append, List.length_cons] at hbound
    have hvalue := complete_expression depth stop value (first :: rest) (by omega) hv
      (free_of_starts hfirst (by decide))
    refine Misses.cons (expect_cons hn) (Misses.cons (take?_cons (by simp [he])) ?_)
    exact Misses.last (run_map some hvalue) ((misses_semicolon hfirst (by decide)).bind _)

theorem misses_returnStatement {depth : Nat} {keyword : Token} {value : Span (Option Expr)}
    (hv : ReadsOptional value) (hbound : (value.tokens ++ first :: rest).length ≤ depth) :
    (returnStatement keyword depth).Misses stop value.tokens first rest value.errors := by
  have hkind : first.kind ≠ .semicolon := fun hk => by simp [startsStatement, hk] at hfirst
  cases hv with
  | absent =>
    have hvalue : (optionalExpression .semicolon depth).Misses stop [] first rest [] := by
      refine Misses.last (peek_eq_some.2 ⟨rfl, rfl, rfl⟩) ?_
      rw [if_neg (by simpa using hkind)]
      exact (misses_expression hfirst depth).bind _
    exact hvalue.bind _
  | @present value hv =>
    obtain ⟨t, ts, ht, hk⟩ := hv.head
    have hne : t.kind ≠ .semicolon := fun h => by rw [h] at hk; revert hk; decide
    have hexpression := complete_expression depth stop value (first :: rest) hbound hv
      (free_of_starts hfirst (by decide))
    have hvalue : optionalExpression .semicolon depth stop (value.tokens ++ first :: rest) =
        ⟨some (some value.tree), first :: rest, value.errors⟩ := by
      rw [optionalExpression, run_bind (peek_eq_some.2 ⟨rfl, rfl, rfl⟩),
        if_neg (by simp [ht, hne]), run_bind hexpression]
      simp
    exact Misses.last hvalue ((misses_semicolon hfirst (by decide)).bind _)

end

-- Without the semicolon at its end a statement is given up at the token that comes instead, however
-- deep the statement is whose end it is.
def MissesEnd (r : Rule Stmt) (slot : Slot) (bound : Nat) : Prop :=
  ∀ stop tail s written first rest, ReadsStmt slot tail s → Cut s.tokens written →
    startsStatement first = true → (written ++ first :: rest).length ≤ bound →
    r.Misses stop written first rest s.errors

section

variable {bound : Nat} {nested : Rule Stmt} (hnested : MissesEnd nested .nested bound)
  {stop first : Token} {written rest : List Token} (hfirst : startsStatement first = true)
include hnested hfirst

theorem misses_whileStatement {condition : Span Expr} {body : Span Stmt} {tail : Tail}
    (hc : ReadsCondition condition) (hb : ReadsStmt .nested tail body)
    (hcut : Cut body.tokens written) {depth : Nat} (hdepth : bound ≤ depth)
    (hbound : (condition.tokens ++ (written ++ first :: rest)).length ≤ bound) :
    (whileStatement nested depth).Misses stop (condition.tokens ++ written) first rest
      (condition.errors ++ body.errors) := by
  have hcondition := complete_condition depth stop (written ++ first :: rest) .whileParen .whileEnd
    hc (Nat.le_trans hbound hdepth)
  rw [List.length_append] at hbound
  have hbody := hnested stop _ body written first rest hb hcut hfirst (by omega)
  exact Misses.after hcondition (hbody.bind _)

theorem misses_ifStatement {condition : Span Expr} {yes : Span Stmt} {tail : Tail}
    (hc : ReadsCondition condition) (hy : ReadsStmt .nested tail yes)
    (hcut : Cut yes.tokens written) {depth : Nat} (hdepth : bound ≤ depth)
    (hbound : (condition.tokens ++ (written ++ first :: rest)).length ≤ bound) :
    (ifStatement nested depth).Misses stop (condition.tokens ++ written) first rest
      (condition.errors ++ yes.errors) := by
  have hcondition := complete_condition depth stop (written ++ first :: rest) .ifParen .ifEnd
    hc (Nat.le_trans hbound hdepth)
  rw [List.length_append] at hbound
  have hyes := hnested stop _ yes written first rest hy hcut hfirst (by omega)
  exact Misses.after hcondition (hyes.bind _)

theorem misses_ifStatement_else (hcomplete : CompleteStatement nested .nested bound)
    {condition : Span Expr} {yes no : Span Stmt} {other : Token} {tail : Tail}
    (hc : ReadsCondition condition) (hy : ReadsStmt .nested .closed yes)
    (he : other.kind = .elseKw) (hn : ReadsStmt .nested tail no) (hcut : Cut no.tokens written)
    {depth : Nat} (hdepth : bound ≤ depth)
    (hbound : (condition.tokens ++ (yes.tokens ++
      other :: (written ++ first :: rest))).length ≤ bound) :
    (ifStatement nested depth).Misses stop (condition.tokens ++ (yes.tokens ++ other :: written))
      first rest (condition.errors ++ (yes.errors ++ no.errors)) := by
  have hcondition := complete_condition depth stop (yes.tokens ++ other :: (written ++ first :: rest))
    .ifParen .ifEnd hc (Nat.le_trans hbound hdepth)
  rw [List.length_append] at hbound
  have hyes := hcomplete stop _ yes (other :: (written ++ first :: rest)) (by omega) hy
    fun h => by cases h
  rw [List.length_append, List.length_cons] at hbound
  have hno := hnested stop _ no written first rest hn hcut hfirst (by omega)
  refine Misses.after (by simpa using hcondition) (Misses.after (by simpa using hyes) ?_)
  exact Misses.cons (take?_cons (by simp [he])) (hno.bind _)

theorem misses_forStatement {opening semicolon closing : Token}
    {initializer : Span (Option Stmt)} {condition increment : Span (Option Expr)}
    {body : Span Stmt} {tail : Tail} (ho : opening.kind = .leftParen)
    (hi : ReadsInitializer initializer) (hc : ReadsOptional condition)
    (hs : semicolon.kind = .semicolon) (hn : ReadsOptional increment)
    (hp : closing.kind = .rightParen) (hb : ReadsStmt .nested tail body)
    (hcut : Cut body.tokens written) {depth : Nat} (hdepth : bound ≤ depth)
    (hbound : (opening :: (initializer.tokens ++ (condition.tokens ++
      semicolon :: (increment.tokens ++ closing :: (written ++ first :: rest))))).length ≤ bound) :
    (forStatement nested depth).Misses stop (opening :: (initializer.tokens ++ (condition.tokens ++
        semicolon :: (increment.tokens ++ closing :: written)))) first rest
      (initializer.errors ++ (condition.errors ++ (increment.errors ++ body.errors))) := by
  rw [List.length_cons] at hbound
  have hinitializer := complete_forInitializer depth stop (condition.tokens ++ semicolon ::
    (increment.tokens ++ closing :: (written ++ first :: rest))) hi (by omega)
  rw [List.length_append] at hbound
  have hcondition := complete_optionalExpression depth stop (increment.tokens ++ closing ::
    (written ++ first :: rest)) (by decide) (by decide) hc hs (by omega)
  rw [List.length_append, List.length_cons] at hbound
  have hincrement := complete_optionalExpression depth stop (written ++ first :: rest) (by decide)
    (by decide) hn hp (by omega)
  rw [List.length_append, List.length_cons] at hbound
  have hbody := hnested stop _ body written first rest hb hcut hfirst (by omega)
  refine Misses.cons (expect_cons ho) (Misses.after (by simpa using hinitializer) ?_)
  refine Misses.after (by simpa using hcondition) (Misses.cons (expect_cons hs) ?_)
  refine Misses.after (by simpa using hincrement) (Misses.cons (expect_cons hp) ?_)
  exact hbody.bind _

end

theorem misses_statementWith {bound : Nat} {nested : Rule Stmt}
    (hcomplete : CompleteStatement nested .nested bound) (hnested : MissesEnd nested .nested bound)
    (block : Rule (List Stmt)) :
    MissesEnd (statementWith nested block (bound + 1)) .nested (bound + 1) := by
  intro stop tail s written first rest h hcut hfirst hbound
  generalize hslot : Slot.nested = slot at h
  induction h generalizing written with
  | @bare s hs =>
    cases hs with
    | @mk value semicolon hv hs =>
      obtain ⟨rfl, -⟩ := cut_concat hcut
      obtain ⟨t, ts, ht, hk⟩ := hv.head
      refine Misses.same (take?_free ?_) (misses_expression_end hfirst hv hbound (by decide) _)
      rw [ht]
      exact free_cons.2 fun hb => by revert hk hb; cases t.kind <;> decide
  | @print keyword semicolon value hk hv hs =>
    obtain ⟨rfl, -⟩ := cut_concat
      (show Cut ((keyword :: value.tokens) ++ [semicolon]) written from hcut)
    rw [List.cons_append, List.length_cons] at hbound
    refine Misses.cons (take?_cons (by simp [hk])) ?_
    simp only [hk]
    exact misses_expression_end hfirst hv (by omega) (by decide) _
  | @returnFrom keyword semicolon value hk hv hs =>
    obtain ⟨rfl, -⟩ := cut_concat
      (show Cut ((keyword :: value.tokens) ++ [semicolon]) written from hcut)
    rw [List.cons_append, List.length_cons] at hbound
    refine Misses.cons (take?_cons (by simp [hk])) ?_
    simp only [hk]
    exact misses_returnStatement hfirst hv (by omega)
  | @breakLoop keyword semicolon hk hs =>
    obtain ⟨rfl, -⟩ := cut_concat (show Cut ([keyword] ++ [semicolon]) written from hcut)
    refine Misses.cons (take?_cons (by simp [hk])) ?_
    simp only [hk]
    exact (misses_semicolon hfirst (by decide)).bind _
  | @block opening closing body ho hb hc ih =>
    obtain ⟨-, hk⟩ := cut_concat
      (show Cut ((opening :: body.flatMap Span.tokens) ++ [closing]) written from hcut)
    rw [hc] at hk
    cases hk
  | @loop keyword condition body tail hk hc hb ih =>
    obtain ⟨w, rfl, hbody⟩ := cut_append hb.ne_nil
      (show Cut ((keyword :: condition.tokens) ++ body.tokens) written from hcut)
    simp only [List.cons_append, List.append_assoc, List.length_cons] at hbound
    refine Misses.cons (take?_cons (by simp [hk])) ?_
    simp only [hk]
    exact misses_whileStatement hnested hfirst hc hb hbody (by omega) (by omega)
  | @forLoop keyword opening semicolon closing initializer condition increment body tail hk ho hi
      hc hs hstep hp hb ih =>
    obtain ⟨w, rfl, hbody⟩ := cut_append hb.ne_nil (show Cut ((keyword :: opening ::
      (initializer.tokens ++ condition.tokens ++ semicolon :: (increment.tokens ++ [closing]))) ++
        body.tokens) written by simpa using hcut)
    simp only [List.cons_append, List.append_assoc, List.nil_append] at hbound ⊢
    rw [List.length_cons] at hbound
    refine Misses.cons (take?_cons (by simp [hk])) ?_
    simp only [hk]
    exact misses_forStatement hnested hfirst ho hi hc hs hstep hp hb hbody (by omega) (by omega)
  | @ifThen keyword condition yes hk hc hy ih =>
    obtain ⟨w, rfl, hyes⟩ := cut_append hy.ne_nil
      (show Cut ((keyword :: condition.tokens) ++ yes.tokens) written from hcut)
    simp only [List.cons_append, List.append_assoc, List.length_cons] at hbound
    refine Misses.cons (take?_cons (by simp [hk])) ?_
    simp only [hk]
    exact misses_ifStatement hnested hfirst hc hy hyes (by omega) (by omega)
  | @ifElse keyword other condition yes no tail hk hc hy he hno ih ih' =>
    obtain ⟨w, rfl, hlast⟩ := cut_append hno.ne_nil
      (show Cut ((keyword :: (condition.tokens ++ yes.tokens ++ [other])) ++ no.tokens) written by
        simpa using hcut)
    simp only [List.cons_append, List.append_assoc, List.nil_append] at hbound ⊢
    rw [List.length_cons] at hbound
    refine Misses.cons (take?_cons (by simp [hk])) ?_
    simp only [hk]
    exact misses_ifStatement_else hnested hfirst hcomplete hc hy he hno hlast (by omega) (by omega)
  | weaken hs ih => exact ih written hcut hbound hslot
  | free hs ih | declared hk hd | function hk hname ho hi hp hc hs hb hl ih => cases hslot

theorem misses_statement (depth : Nat) : MissesEnd (statement depth) .nested depth := by
  induction depth with
  | zero =>
    intro stop tail s written first rest _ _ _ hbound
    rw [List.length_append, List.length_cons] at hbound
    omega
  | succ depth ih =>
    exact misses_statementWith (complete_statement_and_block depth).1 ih (block depth)

-- No statement is a semicolon alone.
theorem ReadsStmt.two_le_length {slot : Slot} {tail : Tail} {s : Span Stmt}
    (h : ReadsStmt slot tail s) : 2 ≤ s.tokens.length := by
  induction h with
  | bare hs =>
    cases hs with
    | mk hv _ =>
      have hpos := List.length_pos_iff.2 hv.ne_nil
      simp only [List.length_append, List.length_singleton]
      omega
  | declared _ hd => cases hd <;> simp
  | weaken _ ih | free _ ih => exact ih
  | loop _ _ _ ih | ifThen _ _ _ ih | ifElse _ _ _ _ _ ih _ =>
    simp only [List.length_cons, List.length_append]
    omega
  | _ => simp

theorem misses_plainDeclaration {bound : Nat} {statement : Rule Stmt}
    (hs : MissesEnd statement .nested bound) (block : Rule (List Stmt)) :
    MissesEnd (plainDeclaration statement block bound) .free bound := by
  intro stop tail s written first rest h hcut hfirst hbound
  generalize hslot : Slot.free = slot at h
  induction h generalizing written with
  | @free tail s hread ih =>
    have hmisses := hs stop tail s written first rest hread hcut hfirst hbound
    obtain ⟨semicolon, htokens, -⟩ := hcut
    obtain ⟨t, ts, ht, hk⟩ := hread.head
    have hlength := hread.two_le_length
    cases written with
    | nil => simp [htokens] at hlength
    | cons u us =>
      obtain ⟨rfl, -⟩ := List.cons.inj (ht.symm.trans htokens)
      refine Misses.same (take?_free (free_cons.2 fun hb => hk ?_)) hmisses
      revert hb
      cases t.kind <;> decide
  | @declared keyword d hk hd =>
    obtain ⟨w, rfl, hvariable⟩ := cut_append (by cases hd <;> simp)
      (show Cut ([keyword] ++ d.tokens) written from hcut)
    rw [List.singleton_append] at hbound ⊢
    rw [List.cons_append, List.length_cons] at hbound
    refine Misses.cons (take?_cons (by simp [hk])) ?_
    simp only [hk, reduceCtorEq, if_false]
    exact misses_variableDeclaration hfirst hd hvariable (by omega)
  | @function keyword name opening closing brace last items parameters body hk hname ho hi hp hc
      hbrace hb hl ih =>
    obtain ⟨-, hkind⟩ := cut_concat (show Cut ((keyword :: name :: opening ::
      (parameters.tokens ++ closing :: brace :: body.flatMap Span.tokens)) ++ [last]) written by
        simpa using hcut)
    rw [hl] at hkind
    cases hkind
  | weaken hs ih => exact ih written hcut hbound hslot
  | _ => cases hslot

-- Declarations in front of one whose semicolon is missing are read, that one is left out with one
-- error, and reading goes on wherever it does from the token that came instead.
theorem readAll_unended (stop : Token) {body : List (Span Stmt)} {s : Span Stmt}
    {written rest : List Token} {first : Token} (hb : ∀ s ∈ body, ReadsStmt .free .dangling s)
    (hs : ReadsStmt .free .dangling s) (hcut : Cut s.tokens written)
    (hfirst : startsStatement first = true) :
    ∃ fault ∈ endFaults,
      readAll stop (body.flatMap Span.tokens ++ (written ++ first :: rest)) =
        let resumed := readAll stop (recover (first :: rest))
        ⟨body.map Span.tree ++ resumed.statements, body.flatMap Span.errors ++
          (s.errors ++ ⟨first, fault⟩ :: resumed.errors)⟩ := by
  let depth := (written ++ first :: rest).length
  obtain ⟨fault, hfault, hrun⟩ := misses_plainDeclaration (misses_statement depth) (block depth)
    stop _ s written first rest hs hcut hfirst (Nat.le_refl _)
  have hdeclaration : declaration depth stop (written ++ first :: rest) =
      ⟨some none, recover (first :: rest), s.errors ++ [⟨first, fault⟩]⟩ := by
    rw [declaration_eq, run_recovering_none hrun]
  have helse : Free [.elseKw] (written ++ first :: rest) := by
    obtain ⟨t, ts, ht, hk⟩ := hs.head
    obtain ⟨semicolon, htokens, -⟩ := hcut
    cases written with
    | nil => exact free_of_starts hfirst (by decide)
    | cons u us =>
      obtain ⟨rfl, -⟩ := List.cons.inj (ht.symm.trans htokens)
      exact free_cons.2 fun hmem => hk (by simp [Slot.barred, List.mem_singleton.1 hmem])
  refine ⟨fault, hfault, ?_⟩
  rw [readAll_append stop hb helse, readAll_step (by simp) (Nat.le_refl _) hdeclaration]
  simp

-- A program that is one declaration, without its last semicolon.
theorem exists_cut {written : List Token} {semicolon stop : Token} {s : Stmt}
    (hwritten : ∀ t ∈ written, t.kind ≠ .eof) (hsemicolon : semicolon.kind = .semicolon)
    (hstop : stop.kind = .eof) (h : parse (written ++ [semicolon, stop]) = ⟨[s], []⟩) :
    ∃ x, ReadsStmt .free .dangling x ∧ x.errors = [] ∧ Cut x.tokens written := by
  have hwhole : ∀ t ∈ written ++ [semicolon], t.kind ≠ .eof :=
    List.forall_mem_append.2 ⟨hwritten, by simp [hsemicolon]⟩
  rw [List.append_cons] at h
  obtain ⟨body, hbody, hone⟩ := reads_of_clean hwhole hstop (congrArg Program.errors h)
  rw [h] at hone
  obtain ⟨x, rfl, -⟩ := List.map_eq_singleton_iff.1 hone.symm
  exact ⟨x, hbody.declarations x (by simp), by simpa using hbody.clean, semicolon,
    by simpa using hbody.tokens.symm, hsemicolon⟩

-- A statement without its semicolon takes the token behind it along, even if only a new statement
-- starts with that: reading goes on as far behind that token as the recovery leads. If the
-- statement that it starts has a single semicolon and no other statement in it, all of it is lost.
theorem missing_semicolon_takes_next {before written rest : List Token}
    {semicolon first stop : Token} {s : Stmt}
    (hmarks : ∀ t ∈ before ++ (written ++ rest), t.kind ≠ .eof) (hstop : stop.kind = .eof)
    (hbefore : (parse (before ++ [stop])).errors = [])
    (hbroken : parse (written ++ [semicolon, stop]) = ⟨[s], []⟩)
    (hsemicolon : semicolon.kind = .semicolon) (hfirst : startsStatement first = true) :
    ∃ fault ∈ endFaults,
      let damaged := parse (before ++ written ++ first :: rest ++ [stop])
      let resumed := parse (recover (first :: rest) ++ [stop])
      damaged = ⟨(parse (before ++ [stop])).statements ++ resumed.statements,
        ⟨first, fault⟩ :: resumed.errors⟩ ∧
      ∀ others last after, rest = others ++ last :: after → last.kind = .semicolon →
        (∀ t ∈ others, t.kind ≠ .semicolon ∧ startsStatement t = false) →
        (parse (after ++ [stop])).errors = [] →
        damaged = ⟨(parse (before ++ [stop])).statements ++ (parse (after ++ [stop])).statements,
          [⟨first, fault⟩]⟩ := by
  obtain ⟨hleft, hmiddle, hright⟩ : (∀ t ∈ before, t.kind ≠ .eof) ∧
      (∀ t ∈ written, t.kind ≠ .eof) ∧ ∀ t ∈ rest, t.kind ≠ .eof := by
    rw [List.forall_mem_append, List.forall_mem_append] at hmarks
    exact hmarks
  have hkind : first.kind ≠ .eof ∧ first.kind ≠ .semicolon := by
    constructor <;> exact fun hk => by simp [startsStatement, hk] at hfirst
  have hbehind : ∀ t ∈ first :: rest, t.kind ≠ .eof := List.forall_mem_cons.2 ⟨hkind.1, hright⟩
  obtain ⟨body, hbody, hstatements⟩ := reads_of_clean hleft hstop hbefore
  obtain ⟨x, hx, hclean, hcut⟩ := exists_cut hmiddle hsemicolon hstop hbroken
  obtain ⟨fault, hfault, hread⟩ := readAll_unended stop hbody.declarations hx hcut hfirst
  rw [← hbody.tokens, hbody.clean, hclean] at hread
  have hdamaged : parse (before ++ written ++ first :: rest ++ [stop]) =
      let resumed := parse (recover (first :: rest) ++ [stop])
      ⟨(parse (before ++ [stop])).statements ++ resumed.statements,
        ⟨first, fault⟩ :: resumed.errors⟩ := by
    have hresumed : ∀ t ∈ recover (first :: rest), t.kind ≠ .eof :=
      fun t ht => hbehind t ((recover_suffix _).subset ht)
    have hall : ∀ t ∈ before ++ (written ++ first :: rest), t.kind ≠ .eof :=
      List.forall_mem_append.2 ⟨hleft, List.forall_mem_append.2 ⟨hmiddle, hbehind⟩⟩
    rw [List.append_assoc before, parse_append [] hall hstop, hread, hstatements,
      parse_append [] hresumed hstop]
    rfl
  refine ⟨fault, hfault, hdamaged, ?_⟩
  rintro others last after rfl hlast hothers hafter
  have hpast : recover (first :: others ++ last :: after) = after :=
    recover_semicolon hlast (List.forall_mem_cons.2 ⟨hkind.2, fun t ht => (hothers t ht).1⟩)
      (List.forall_mem_append.2 ⟨fun t ht => (hothers t ht).2, by simp [startsStatement, hlast]⟩)
      after
  rw [List.cons_append] at hpast
  simp only [hdamaged, hpast, hafter]

-- `print x; print y print z; print x;`.
theorem missing_semicolon_takes_print :
    let stop := bare .eof ""
    let written := [bare .printKw "print", bare .identifier "y"]
    let rest := [bare .identifier "z"] ++ bare .semicolon ";" :: printing "x"
    (parse (printing "x" ++ [stop])).errors = [] ∧
      parse (written ++ [bare .semicolon ";", stop]) =
        ⟨[.print (.variable (bare .identifier "y"))], []⟩ ∧
      ∃ fault ∈ endFaults,
        parse (printing "x" ++ written ++ bare .printKw "print" :: rest ++ [stop]) =
          ⟨[.print (.variable (bare .identifier "x")), .print (.variable (bare .identifier "x"))],
            [⟨bare .printKw "print", fault⟩]⟩ := by
  intro stop written rest
  have hclean := congrArg Program.errors (parse_printing "x")
  have hbroken : parse (written ++ [bare .semicolon ";", stop]) =
      ⟨[.print (.variable (bare .identifier "y"))], []⟩ := parse_printing "y"
  obtain ⟨fault, hfault, -, hlost⟩ := @missing_semicolon_takes_next (printing "x") written rest
    (bare .semicolon ";") (bare .printKw "print") stop _ (by decide) rfl hclean hbroken rfl rfl
  have hdamaged := hlost [bare .identifier "z"] (bare .semicolon ";") (printing "x") rfl rfl
    (by decide) hclean
  rw [parse_printing] at hdamaged
  exact ⟨hclean, hbroken, fault, hfault, hdamaged⟩

-- The declaration behind a missing semicolon is not always kept: `print x print y; print z;`.
theorem neighbour_lost :
    ¬ ∀ (before written next after : List Token) (semicolon stop : Token) (s s' : Stmt),
      (∀ t ∈ before ++ written ++ next ++ after, t.kind ≠ .eof) → stop.kind = .eof →
      (parse (before ++ [stop])).errors = [] →
      parse (written ++ [semicolon, stop]) = ⟨[s], []⟩ → semicolon.kind = .semicolon →
      parse (next ++ [stop]) = ⟨[s'], []⟩ → next.head?.any startsStatement = true →
      (parse (after ++ [stop])).errors = [] →
      let damaged := parse (before ++ written ++ next ++ after ++ [stop])
      damaged.errors.length = 1 ∧ damaged.statements =
        (parse (before ++ [stop])).statements ++ s' :: (parse (after ++ [stop])).statements := by
  intro h
  have hkept := (h [] [bare .printKw "print", bare .identifier "x"] (printing "y") (printing "z")
    (bare .semicolon ";") (bare .eof "") _ _ (by decide) rfl rfl (parse_printing "x") rfl
    (parse_printing "y") rfl (congrArg Program.errors (parse_printing "z"))).2
  exact absurd (congrArg List.length hkept) (by decide)

end Lox.Syntax
