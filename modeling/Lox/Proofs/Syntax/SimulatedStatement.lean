import Lox.Proofs.Syntax.Declared
import Lox.Proofs.Syntax.SimulatedExpression

namespace Lox.Syntax

open Rule

-- One of several tokens is read if the first of them is, or one of the others.
theorem take?_cons_eq {α : Type} (kind : TokenKind) (kinds : List TokenKind)
    (f : Option Token → Rule α) :
    (take? (kind :: kinds) >>= f) = (take? [kind] >>= fun
      | none => take? kinds >>= f
      | some t => f (some t)) := by
  funext stop tokens
  cases tokens with
  | nil => rfl
  | cons t ts =>
    by_cases ht : t.kind = kind
    · rw [run_bind (take?_cons (by simp [ht])), run_bind (take?_cons (by simp [ht]))]
    · have hnone : Free [kind] (t :: ts) := by simpa using ht
      rw [run_bind (take?_free hnone)]
      have hothers : take? (kind :: kinds) stop (t :: ts) = take? kinds stop (t :: ts) := by
        simp [take?, ht]
      simp only [Bind.bind, hothers]
      rfl

namespace Simulates

variable {n : Nat} {P : (before rest : List Token) → Prop}

section

variable {depth : Nat} (hd : n < depth)
include hd

theorem optionalExpression (terminator : TokenKind) :
    Simulates Anywhere n (Walk.optionalExpression terminator depth)
      (optionalExpression terminator depth) :=
  .checked (.pure none) ((Simulates.expression hd).bind fun _ => .pure _)

theorem expressionStatement :
    Simulates Anywhere n (Walk.expressionStatement depth) (expressionStatement depth) :=
  (Simulates.expression hd).bind fun _ => (Simulates.consume _ _).bind fun _ => .pure _

theorem initializer :
    Simulates Anywhere n (Walk.initializer depth) (take? [.equal] >>= fun
      | none => Pure.pure none
      | some _ => some <$> Syntax.expression depth) :=
  .accept (.pure none) fun _ _ _ hm => ((Simulates.expression hd).map some).weaken hm.le

theorem variableDeclaration :
    Simulates Anywhere n (Walk.variableDeclaration depth) (variableDeclaration depth) := by
  refine (Simulates.consume _ _).bind fun name => ?_
  have hend := (Simulates.initializer hd).bind fun value =>
    (Simulates.consume (P := Anywhere) .semicolon .variableEnd).bind fun _ =>
      .pure (Stmt.declare name value)
  rw [bind_assoc] at hend
  convert hend using 3 with t
  cases t <;> rfl

theorem functionDeclaration {block : Walk (List Stmt)} {block' : Rule (List Stmt)}
    (hb : Simulates Anywhere n block block') :
    Simulates Anywhere n (Walk.functionDeclaration block depth)
      (functionDeclaration block' depth) := by
  have hparameters := (Simulates.consume (P := Anywhere) (n := n) .identifier
    .parameterName).commaList .parameters hd.le
  refine (Simulates.consume _ _).bind fun name => (Simulates.consume _ _).bind fun _ => ?_
  refine hparameters.bind fun parameters => (Simulates.consume _ _).bind fun _ => ?_
  exact (Simulates.consume _ _).bind fun _ => hb.bind fun body => .pure _

theorem condition (paren close : SyntaxFault) :
    Simulates Anywhere n (Walk.condition paren close depth) (condition paren close depth) := by
  refine (Simulates.consume _ _).bind fun _ => (Simulates.expression hd).bind fun value => ?_
  exact (Simulates.consume _ _).bind fun _ => .pure _

theorem printStatement :
    Simulates Anywhere n (Walk.printStatement depth) (printStatement depth) :=
  (Simulates.expression hd).bind fun _ => (Simulates.consume _ _).bind fun _ => .pure _

theorem returnStatement (keyword : Token) :
    Simulates (After keyword) n (Walk.returnStatement depth) (returnStatement keyword depth) :=
  .previous <| (Simulates.optionalExpression hd _).bind fun _ =>
    (Simulates.consume _ _).bind fun _ => .pure _

omit hd in
theorem breakStatement (keyword : Token) :
    Simulates (After keyword) n Walk.breakStatement (breakStatement keyword) :=
  .previous <| (Simulates.consume _ _).bind fun _ => .pure _

theorem forInitializer :
    Simulates Anywhere n (Walk.forInitializer depth) (forInitializer depth) := by
  unfold Syntax.forInitializer
  rw [take?_cons_eq]
  refine .accept ?_ fun t ht m hm => ?_
  · refine .accept ?_ fun t ht m hm => ?_
    · exact (Simulates.expressionStatement hd).map some
    · rw [List.mem_singleton] at ht
      simp only [ht]
      exact .pure none
  · rw [List.mem_singleton] at ht
    simp only [ht]
    exact ((Simulates.variableDeclaration hd).map some).weaken hm.le

section

variable {statement : Walk Stmt} {statement' : Rule Stmt}
  (hs : Simulates Anywhere n statement statement')
include hs

theorem ifStatement :
    Simulates Anywhere n (Walk.ifStatement statement depth) (ifStatement statement' depth) := by
  refine (Simulates.condition hd _ _).bind fun condition => hs.bind fun yes => ?_
  exact .accept (.pure _) fun _ _ m hm => (hs.weaken hm.le).bind fun no => .pure _

theorem whileStatement :
    Simulates Anywhere n (Walk.whileStatement statement depth)
      (whileStatement statement' depth) :=
  (Simulates.condition hd _ _).bind fun _ => hs.bind fun _ => .pure _

theorem forStatement :
    Simulates Anywhere n (Walk.forStatement statement depth) (forStatement statement' depth) := by
  refine (Simulates.consume _ _).bind fun _ => (Simulates.forInitializer hd).bind fun _ => ?_
  refine (Simulates.optionalExpression hd _).bind fun _ => (Simulates.consume _ _).bind fun _ => ?_
  refine (Simulates.optionalExpression hd _).bind fun _ => (Simulates.consume _ _).bind fun _ => ?_
  exact hs.bind fun _ => .pure _

end

end

theorem statementWith {nested : Walk Stmt} {nested' : Rule Stmt} {block : Walk (List Stmt)}
    {block' : Rule (List Stmt)} {depth : Nat} (hd : n < depth)
    (hn : ∀ m < n, Simulates Anywhere m nested nested')
    (hb : ∀ m < n, Simulates Anywhere m block block') :
    Simulates Anywhere n (Walk.statementWith nested block depth)
      (statementWith nested' block' depth) := by
  intro before stop hends rest cursor hat _ hlen
  refine (goes_peek hat).then fun c hc _ => ?_
  by_cases hfree : Free [.forKw, .ifKw, .printKw, .returnKw, .whileKw, .breakKw, .leftBrace] rest
  · have hkind := hends.kind_notMem hfree (by decide)
    rw [Syntax.statementWith, run_bind (take?_free hfree)]
    split
    case h_8 => exact Simulates.expressionStatement hd before stop hends rest c hc trivial hlen
    all_goals next h =>
      rw [h] at hkind
      exact absurd (by decide) hkind
  · cases rest with
    | nil => exact absurd (free_nil _) hfree
    | cons t ts =>
      rw [free_cons, not_not] at hfree
      rw [Syntax.statementWith, run_bind (take?_cons hfree)]
      simp only [List.mem_cons, List.not_mem_nil, or_false] at hfree
      have hless : ts.length < n := hlen
      have hdepth : ts.length < depth := Nat.lt_trans hless hd
      have hnested := hn ts.length hless
      have hblock := (hb ts.length hless).map Stmt.block
      have hopened {w : Walk Stmt} {r : Rule Stmt} (hw : Simulates (After t) ts.length w r) :
          Goes before stop (Walk.advance >>= fun _ => w) c (Reading.after [] (r stop ts)) :=
        (goes_advance hends hc).bind fun c' hc' _ =>
          hw before stop hends ts c' hc' hc.after (Nat.le_refl _)
      rcases hfree with h | h | h | h | h | h | h <;> simp only [List.headD, h]
      · exact hopened (Simulates.forStatement hdepth hnested).anywhere
      · exact hopened (Simulates.ifStatement hdepth hnested).anywhere
      · exact hopened (Simulates.printStatement hdepth).anywhere
      · exact hopened (.returnStatement hdepth t)
      · exact hopened (Simulates.whileStatement hdepth hnested).anywhere
      · exact hopened (.breakStatement t)
      · exact hopened hblock.anywhere

theorem plainDeclaration {statement : Walk Stmt} {statement' : Rule Stmt}
    {block : Walk (List Stmt)} {block' : Rule (List Stmt)} {depth : Nat} (hd : n < depth)
    (hs : Simulates Anywhere n statement statement')
    (hb : ∀ m < n, Simulates Anywhere m block block') :
    Simulates Anywhere n (Walk.plainDeclaration statement block depth)
      (plainDeclaration statement' block' depth) := by
  unfold Syntax.plainDeclaration
  rw [take?_cons_eq]
  refine .accept ?_ fun t ht m hm => ?_
  · refine .accept hs fun t ht m hm => ?_
    rw [List.mem_singleton] at ht
    simp only [ht]
    exact (Simulates.variableDeclaration hd).weaken hm.le
  · rw [List.mem_singleton] at ht
    simp only [ht]
    exact (Simulates.functionDeclaration (Nat.lt_trans hm hd) (hb m hm)).anywhere

end Simulates

section

variable {before rest : List Token} {stop t : Token} {cursor : Cursor} {rounds : Nat}

theorem recover_singleton (t : Token) : recover [t] = [] := by
  unfold recover
  split <;> rfl

-- Recovery works on the tokens from the one at which it stands, a walk on the one that it read last
-- and those that are left.
theorem goes_skip (hends : Ends before stop) (hat : cursor.At before rest)
    (hlast : After t before rest) (hr : rest.length < rounds) :
    Goes before stop (Walk.skip rounds) cursor ⟨some (), recover (t :: rest), []⟩ := by
  induction rounds generalizing t rest cursor with
  | zero => exact absurd hr (Nat.not_lt_zero _)
  | succ rounds ih =>
    refine (goes_atEnd hends hat).then fun c hc _ => ?_
    cases rest with
    | nil =>
      rw [recover_singleton]
      exact goes_pure () hc
    | cons u us =>
      refine (goes_previous hc hlast).then fun c hc _ => ?_
      by_cases hsemicolon : t.kind = .semicolon
      · rw [recover, if_pos hsemicolon, if_pos (by simp [hsemicolon])]
        exact goes_pure () hc
      · rw [if_neg hsemicolon]
        refine (goes_peek hc).then fun c hc _ => ?_
        rw [List.headD_cons]
        by_cases hstarts : startsStatement u = true
        · rw [recover, if_pos hstarts, if_pos (by simp [hstarts])]
          exact goes_pure () hc
        · rw [recover, if_neg hstarts, if_neg (by simp [hsemicolon, hstarts])]
          refine (goes_advance hends hc).then fun c hc' _ => ?_
          exact ih hc' hc.after (Nat.lt_of_succ_lt_succ hr)

theorem goes_synchronize (hends : Ends before stop) (hat : cursor.At before rest)
    (hne : before ≠ []) (hr : rest.length < rounds) :
    Goes before stop (Walk.synchronize rounds) cursor ⟨some (), recover rest, []⟩ := by
  cases rest with
  | nil =>
    -- There is a token to look back at even here, since a declaration starts before the end.
    let t := before.getLast hne
    have hlast : After t before [] := ⟨before.dropLast, (List.dropLast_concat_getLast hne).symm⟩
    have hadvance : Goes before stop Walk.advance cursor ⟨some t, [], []⟩ :=
      (goes_atEnd hends hat).then fun c hc _ => goes_previous hc hlast
    refine hadvance.then fun c hc _ => ?_
    have hskip := goes_skip hends hc hlast hr
    rwa [recover_singleton] at hskip
  | cons t ts =>
    refine (goes_advance hends hat).then fun c hc _ => ?_
    exact goes_skip hends hc hat.after (Nat.lt_of_succ_lt hr)

theorem goes_ended (hends : Ends before stop) (hat : cursor.At before rest) (braceEnds : Bool) :
    Goes before stop (Walk.ended braceEnds) cursor
      ⟨some (decide (rest.head?.map Token.kind = none ∨
        (braceEnds ∧ rest.head?.map Token.kind = some .rightBrace))), rest, []⟩ := by
  cases braceEnds with
  | false =>
    refine (goes_pure false hat).then fun c hc _ => ?_
    have hend := goes_atEnd hends hc
    cases rest <;> simpa using hend
  | true =>
    refine (goes_check hends hat .rightBrace).then fun c hc _ => ?_
    cases rest with
    | nil => exact goes_atEnd hends hc
    | cons t ts =>
      by_cases hbrace : t.kind = .rightBrace
      · have hdone := @goes_pure _ _ _ stop _ true hc
        simpa [hbrace] using hdone
      · have hend := goes_atEnd hends hc
        simpa [hbrace] using hend

end

namespace Simulates

variable {n : Nat}

-- What gave up is passed over from where it stood, which is not the start of an empty program.
theorem attempt {w : Walk Stmt} {r : Rule Stmt} {rounds : Nat} (hw : Simulates Anywhere n w r)
    (hr : n < rounds) : Simulates NotAtEnd n (Walk.attempt w rounds) (recovering r) := by
  intro before stop hends rest cursor hat hne hlen
  obtain ⟨c, hgo⟩ := hw before stop hends rest cursor hat trivial hlen
  rcases hrun : r stop rest with ⟨_ | s, middle, errors⟩ <;> rw [hrun] at hgo
  · have hbefore : before ≠ [] := by
      obtain ⟨used, rfl, -⟩ := hat
      simp [show rest ≠ [] from hne]
    have hmiddle : middle.length < rounds := by
      have hplace := hat.place_add
      have hplace' := hgo.place.place_add
      have hforward := hgo.forward
      dsimp only at hplace'
      omega
    have hsynchronize : Goes before stop
        (Walk.synchronize rounds >>= fun _ => Pure.pure (none : Option Stmt)) c
        ⟨some none, recover middle, []⟩ :=
      (goes_synchronize hends hgo.place hbefore hmiddle).then fun c hc _ => goes_pure none hc
    obtain ⟨after, hafter⟩ := hsynchronize
    have hboth : GoesTo before stop (Walk.attempt w rounds) cursor after
        (Reading.after errors ⟨some none, recover middle, []⟩) :=
      hgo.trans hafter fun more => by
        have hbroken := hgo.run more
        simp only [Walk.attempt, hbroken]
        rfl
    rw [Reading.after_mk, List.append_nil] at hboth
    rw [run_recovering_none hrun]
    exact ⟨after, hboth⟩
  · rw [run_recovering hrun]
    refine ⟨c, fun more => ?_, hgo.place, hgo.forward, hgo.errors, hgo.events⟩
    have hvalue := hgo.run more
    simp only [Walk.attempt, hvalue]
    rfl

-- What is recorded of a declaration is where it starts and ends.
theorem recorded {w : Walk (Option Stmt)} {r : Rule (Option Stmt)}
    (hw : Simulates NotAtEnd n w r) (hc : r.Consumes) :
    Simulates NotAtEnd n (Walk.recorded w) r := by
  intro before stop hends rest cursor hat hne hlen
  obtain ⟨after, hgo⟩ := hw before stop hends rest cursor hat hne hlen
  have hless := hc stop rest hne
  have hstart := hat.place_add
  have hstop := hgo.place.place_add
  obtain ⟨es, hes, hall⟩ := hgo.events
  have hevent : (Event.declared cursor.place after.place).Within before.length := by
    simp only [Event.Within]
    omega
  refine ⟨{ after with events := after.events ++ [.declared cursor.place after.place] }, ?_⟩
  refine ⟨fun more => ?_, hgo.place, hgo.forward, hgo.errors,
    es ++ [.declared cursor.place after.place], ?_, ?_⟩
  · have hrun := hgo.run more
    simp only [Walk.recorded, hrun]
  · rw [hes, List.append_assoc]
  · intro e he
    rcases List.mem_append.1 he with he | he
    · exact hall e he
    · rwa [List.mem_singleton.1 he]

-- Each round has fewer tokens left than the one before it, so that the rounds are not used up.
theorem declarations {declaration : Walk (Option Stmt)} {declaration' : Rule (Option Stmt)}
    (hd : Simulates NotAtEnd n declaration declaration') (hc' : declaration'.Consumes)
    (braceEnds : Bool) {rounds : Nat} (hr : n < rounds) :
    Simulates Anywhere n (Walk.declarations declaration braceEnds rounds)
      (declarations declaration' braceEnds rounds) := by
  induction rounds generalizing n with
  | zero => exact absurd hr (Nat.not_lt_zero n)
  | succ rounds ih =>
    intro before stop hends rest cursor hat _ hlen
    rw [Syntax.declarations, run_bind (peek_eq_some.2 ⟨rfl, rfl, rfl⟩)]
    refine (goes_ended hends hat braceEnds).then fun c hc _ => ?_
    split
    · next hend =>
      rw [if_pos (of_decide_eq_true hend)]
      exact goes_pure [] hc
    · next hend =>
      rw [decide_eq_true_eq] at hend
      rw [if_neg hend]
      have hne : rest ≠ [] := by
        rintro rfl
        exact hend (.inl rfl)
      have hgoes := hd before stop hends rest c hc hne hlen
      have hless := hc' stop rest hne
      rcases hrun : declaration' stop rest with ⟨_ | first, middle, errors⟩ <;>
        rw [hrun] at hgoes hless
      · rw [run_bind_none _ hrun]
        exact hgoes.bind_none _
      · rw [run_bind hrun, Reading.after_after, List.nil_append]
        refine hgoes.bind fun c hc _ => ?_
        dsimp only at hless
        have hothers := ih (hd.mono (by omega : middle.length ≤ n)) (by omega)
        exact (hothers.bind fun others => .pure (first.toList ++ others)) before stop hends middle
          c hc trivial (Nat.le_refl _)

theorem statement_and_block {depth : Nat} (hd : n < depth) :
    Simulates Anywhere n (Walk.statement depth) (statement depth) ∧
      Simulates Anywhere n (Walk.block depth) (block depth) := by
  induction depth generalizing n with
  | zero => exact absurd hd (Nat.not_lt_zero n)
  | succ depth ih =>
    have hnested : ∀ m < n, Simulates Anywhere m (Walk.statement depth) (statement depth) :=
      fun m hm => (ih (by omega)).1
    have hblock : ∀ m < n, Simulates Anywhere m (Walk.block depth) (block depth) :=
      fun m hm => (ih (by omega)).2
    have hstatement := Simulates.statementWith hd hnested hblock
    refine ⟨hstatement, ?_⟩
    obtain ⟨hshrinks, hbshrinks⟩ := stable_shrinks.statement_and_block depth
    have hconsumes := consumes_nested hshrinks hbshrinks (depth + 1)
    have hdeclaration := ((Simulates.plainDeclaration hd hstatement hblock).attempt hd).recorded
      hconsumes
    exact (hdeclaration.declarations hconsumes true hd).bind fun body =>
      (Simulates.consume .rightBrace .blockEnd).bind fun _ => .pure body

theorem declaration {depth : Nat} (hd : n < depth) :
    Simulates NotAtEnd n (Walk.declaration depth) (declaration depth) := by
  obtain ⟨hstatement, hblock⟩ := Simulates.statement_and_block hd
  have hplain := Simulates.plainDeclaration hd hstatement fun m hm => hblock.mono hm.le
  exact (hplain.attempt hd).recorded (consumes_declaration depth)

theorem program {depth : Nat} (hd : n < depth) :
    Simulates Anywhere n (Walk.program depth)
      (Syntax.declarations (Syntax.declaration depth) false depth) :=
  (Simulates.declaration hd).declarations (consumes_declaration depth) false hd

end Simulates

end Lox.Syntax
