import Lox.Proofs.Syntax.Relined
import Lox.Proofs.Syntax.Stable
import Mathlib.Data.List.TakeWhile

namespace Lox.Syntax

open Rule

-- The error with its token on another line.
def SyntaxError.relined (f : Token → Int) (e : SyntaxError) : SyntaxError :=
  ⟨e.token.relined f, e.fault⟩

-- A rule that makes of tokens on other lines what another rule makes of the tokens, on other
-- lines. The value is carried along by `g`.
def Rule.Follows {α : Type} (f : Token → Int) (g : α → α) (r r' : Rule α) : Prop :=
  ∀ stop tokens, r' (stop.relined f) (tokens.map (·.relined f)) =
    ⟨(r stop tokens).value.map g, (r stop tokens).rest.map (·.relined f),
      (r stop tokens).errors.map (·.relined f)⟩

section

variable {α β : Type} {f : Token → Int}

theorem follows_pure {g : α → α} (a : α) : Follows f g (pure a) (pure (g a)) :=
  fun _ _ => rfl

theorem follows_bind {g : α → α} {g' : β → β} {r r' : Rule α} {k k' : α → Rule β}
    (hr : Follows f g r r') (hk : ∀ a, Follows f g' (k a) (k' (g a))) :
    Follows f g' (r >>= k) (r' >>= k') := by
  intro stop tokens
  simp only [bind, hr stop tokens]
  cases r stop tokens with
  | mk value rest errors =>
    cases value with
    | none => rfl
    | some a => simp [hk a stop rest]

theorem follows_map {g : α → α} {g' : β → β} {r r' : Rule α} {h : α → β} (hr : Follows f g r r')
    (hh : ∀ a, h (g a) = g' (h a)) : Follows f g' (h <$> r) (h <$> r') := by
  rw [map_eq_pure_bind, map_eq_pure_bind]
  refine follows_bind hr fun a => ?_
  rw [hh]
  exact follows_pure (h a)

theorem follows_here : Follows f (·.relined f) here here := by
  intro stop tokens
  cases tokens <;> rfl

theorem follows_peek : Follows f id peek peek := by
  intro stop tokens
  cases tokens <;> rfl

theorem follows_take? (kinds : List TokenKind) :
    Follows f (Option.map (·.relined f)) (take? kinds) (take? kinds) := by
  intro stop tokens
  cases tokens with
  | nil => rfl
  | cons t ts =>
    by_cases ht : t.kind ∈ kinds
    · simp [take?, ht]
    · simp [take?, ht]

theorem follows_takeAll (kinds : List TokenKind) :
    Follows f (List.map (·.relined f)) (takeAll kinds) (takeAll kinds) := by
  intro stop tokens
  simp only [takeAll, List.takeWhile_map, List.dropWhile_map]
  rfl

theorem follows_complain (token : Token) (fault : SyntaxFault) :
    Follows f id (complain token fault) (complain (token.relined f) fault) :=
  fun _ _ => rfl

theorem follows_fail {g : α → α} (fault : SyntaxFault) : Follows f g (fail fault) (fail fault) := by
  intro stop tokens
  cases tokens <;> rfl

theorem follows_ite {g : α → α} {r r' s s' : Rule α} (p : Prop) [Decidable p]
    (hr : Follows f g r r') (hs : Follows f g s s') :
    Follows f g (if p then r else s) (if p then r' else s') := by
  split
  · exact hr
  · exact hs

theorem follows_expect (kind : TokenKind) (fault : SyntaxFault) :
    Follows f (·.relined f) (expect kind fault) (expect kind fault) := by
  refine follows_bind (follows_take? [kind]) fun t => ?_
  cases t with
  | none => exact follows_fail fault
  | some t => exact follows_pure t

theorem follows_remark (what : ListItem) (count : Nat) :
    Follows f id (remark what count) (remark what count) :=
  follows_ite (listLimit ≤ count)
    (follows_bind follows_here fun t => follows_complain t _) (follows_pure ())

theorem follows_items {g : α → α} {item : Rule α} (hi : Follows f g item item) (what : ListItem)
    (rounds count : Nat) :
    Follows f (List.map g) (items item what rounds count) (items item what rounds count) := by
  induction rounds generalizing count with
  | zero => exact follows_pure []
  | succ rounds ih =>
    rw [items_succ]
    refine follows_bind (follows_remark what count) fun _ => follows_bind hi fun first =>
      follows_bind (follows_take? _) fun t => ?_
    cases t with
    | none => exact follows_pure [first]
    | some t => exact follows_bind (ih (count + 1)) fun others => follows_pure (first :: others)

theorem follows_commaList {g : α → α} {item : Rule α} (hi : Follows f g item item)
    (what : ListItem) (rounds : Nat) :
    Follows f (List.map g) (commaList item what rounds) (commaList item what rounds) := by
  refine follows_bind follows_peek fun kind => ?_
  dsimp only [id]
  split
  · exact follows_pure []
  · exact follows_items hi what (rounds + 1) 0

theorem follows_chainFrom {operand : Rule Expr} (ho : Follows f (·.relined f) operand operand)
    (node : Expr → Token → Expr → Expr)
    (hn : ∀ left operator right, node (left.relined f) (operator.relined f) (right.relined f) =
      (node left operator right).relined f)
    (kinds : List TokenKind) (rounds : Nat) (left : Expr) :
    Follows f (·.relined f) (chainFrom operand node kinds rounds left)
      (chainFrom operand node kinds rounds (left.relined f)) := by
  induction rounds generalizing left with
  | zero => exact follows_pure left
  | succ rounds ih =>
    refine follows_bind (follows_take? kinds) fun t => ?_
    cases t with
    | none => exact follows_pure left
    | some operator =>
      refine follows_bind ho fun right => ?_
      rw [hn]
      exact ih _

theorem follows_chain {operand : Rule Expr} (ho : Follows f (·.relined f) operand operand)
    (node : Expr → Token → Expr → Expr)
    (hn : ∀ left operator right, node (left.relined f) (operator.relined f) (right.relined f) =
      (node left operator right).relined f)
    (kinds : List TokenKind) (rounds : Nat) :
    Follows f (·.relined f) (chain operand node kinds rounds) (chain operand node kinds rounds) :=
  follows_bind ho fun left => follows_chainFrom ho node hn kinds rounds left

theorem follows_primary {nested : Rule Expr} (hn : Follows f (·.relined f) nested nested) :
    Follows f (·.relined f) (primary nested) (primary nested) := by
  refine follows_bind (follows_take? _) fun t => ?_
  cases t with
  | none => exact follows_fail _
  | some t =>
    dsimp only [Option.map, Token.kind_relined, Token.literal_relined]
    cases t.kind with
    | leftParen =>
      exact follows_bind hn fun inner => follows_bind (follows_expect _ _) fun _ =>
        follows_pure (Expr.grouping inner)
    | _ => exact follows_pure _

theorem follows_callsFrom {nested : Rule Expr} (hn : Follows f (·.relined f) nested nested)
    (rounds : Nat) (callee : Expr) :
    Follows f (·.relined f) (callsFrom nested rounds callee)
      (callsFrom nested rounds (callee.relined f)) := by
  induction rounds generalizing callee with
  | zero => exact follows_pure callee
  | succ rounds ih =>
    refine follows_bind (follows_take? _) fun t => ?_
    cases t with
    | none => exact follows_pure callee
    | some t =>
      refine follows_bind (follows_commaList hn _ rounds) fun arguments =>
        follows_bind (follows_expect _ _) fun paren => ?_
      have h := ih (.call callee paren arguments)
      rw [Expr.relined, Expr.allRelined_eq_map] at h
      exact h

theorem relined_foldr (operators : List Token) (operand : Expr) :
    (operators.map (·.relined f)).foldr .unary (operand.relined f) =
      (operators.foldr .unary operand).relined f := by
  induction operators with
  | nil => rfl
  | cons operator operators ih => simp [Expr.relined, ← ih]

theorem follows_unary {nested : Rule Expr} (hn : Follows f (·.relined f) nested nested)
    (rounds : Nat) : Follows f (·.relined f) (unary nested rounds) (unary nested rounds) := by
  have hcall : Follows f (·.relined f) (call nested rounds) (call nested rounds) :=
    follows_bind (follows_primary hn) fun callee => follows_callsFrom hn rounds callee
  refine follows_bind (follows_takeAll _) fun operators => follows_bind hcall fun operand => ?_
  rw [relined_foldr]
  exact follows_pure _

theorem follows_disjunction {nested : Rule Expr} (hn : Follows f (·.relined f) nested nested)
    (rounds : Nat) :
    Follows f (·.relined f) (disjunction nested rounds) (disjunction nested rounds) := by
  have hfactor := follows_chain (follows_unary hn rounds) .binary (fun _ _ _ => rfl)
    [.slash, .star] rounds
  have hterm := follows_chain hfactor .binary (fun _ _ _ => rfl) [.minus, .plus] rounds
  have hcomparison := follows_chain hterm .binary (fun _ _ _ => rfl)
    [.greater, .greaterEqual, .less, .lessEqual] rounds
  have hequality := follows_chain hcomparison .binary (fun _ _ _ => rfl)
    [.bangEqual, .equalEqual] rounds
  have hconjunction := follows_chain hequality .logical (fun _ _ _ => rfl) [.andKw] rounds
  exact follows_chain hconjunction .logical (fun _ _ _ => rfl) [.orKw] rounds

theorem follows_assignment {nested : Rule Expr} (hn : Follows f (·.relined f) nested nested)
    (rounds : Nat) :
    Follows f (·.relined f) (assignment nested rounds) (assignment nested rounds) := by
  refine follows_bind (follows_disjunction hn rounds) fun target =>
    follows_bind (follows_take? _) fun t => ?_
  cases t with
  | none => exact follows_pure target
  | some equal =>
    refine follows_bind hn fun value => ?_
    cases target with
    | «variable» name => exact follows_pure (Expr.assign name value)
    | _ => exact follows_bind (follows_complain equal _) fun _ => follows_pure _

theorem follows_expression (depth : Nat) :
    Follows f (·.relined f) (expression depth) (expression depth) := by
  induction depth with
  | zero => exact follows_fail _
  | succ depth ih => exact follows_assignment ih depth

theorem follows_optionalExpression (terminator : TokenKind) (depth : Nat) :
    Follows f (Option.map (·.relined f)) (optionalExpression terminator depth)
      (optionalExpression terminator depth) := by
  refine follows_bind follows_peek fun kind => ?_
  dsimp only [id]
  split
  · exact follows_pure none
  · exact follows_bind (follows_expression depth) fun e => follows_pure (some e)

theorem follows_expressionStatement (depth : Nat) :
    Follows f (·.relined f) (expressionStatement depth) (expressionStatement depth) :=
  follows_bind (follows_expression depth) fun value => follows_bind (follows_expect _ _) fun _ =>
    follows_pure (Stmt.expression value)

theorem follows_variableDeclaration (depth : Nat) :
    Follows f (·.relined f) (variableDeclaration depth) (variableDeclaration depth) := by
  refine follows_bind (follows_expect _ _) fun name => follows_bind (follows_take? _) fun t => ?_
  have hrest (initializer : Option Expr) : Follows f (Stmt.relined f) (do
      let _ ← expect .semicolon .variableEnd
      pure (Stmt.declare name initializer)) (do
      let _ ← expect .semicolon .variableEnd
      pure (Stmt.declare (name.relined f) (initializer.map (·.relined f)))) :=
    follows_bind (follows_expect _ _) fun _ => follows_pure (Stmt.declare name initializer)
  cases t with
  | none => exact follows_bind (g := Option.map (·.relined f)) (follows_pure none) hrest
  | some equal =>
    exact follows_bind (g := Option.map (·.relined f))
      (follows_map (follows_expression depth) fun _ => rfl) hrest

theorem follows_functionDeclaration {block : Rule (List Stmt)}
    (hb : Follows f (Stmt.allRelined f) block block) (depth : Nat) :
    Follows f (·.relined f) (functionDeclaration block depth) (functionDeclaration block depth) :=
  follows_bind (follows_expect _ _) fun name => follows_bind (follows_expect _ _) fun _ =>
    follows_bind (follows_commaList (follows_expect _ _) _ depth) fun parameters =>
      follows_bind (follows_expect _ _) fun _ => follows_bind (follows_expect _ _) fun _ =>
        follows_bind hb fun body => follows_pure (Stmt.function name parameters body)

theorem follows_condition (paren close : SyntaxFault) (depth : Nat) :
    Follows f (·.relined f) (condition paren close depth) (condition paren close depth) :=
  follows_bind (follows_expect _ _) fun _ => follows_bind (follows_expression depth) fun value =>
    follows_bind (follows_expect _ _) fun _ => follows_pure value

theorem follows_ifStatement {statement : Rule Stmt}
    (hs : Follows f (·.relined f) statement statement) (depth : Nat) :
    Follows f (·.relined f) (ifStatement statement depth) (ifStatement statement depth) := by
  refine follows_bind (follows_condition _ _ depth) fun condition => follows_bind hs fun yes =>
    follows_bind (follows_take? _) fun t => ?_
  cases t with
  | none => exact follows_pure (Stmt.branch condition yes none)
  | some other => exact follows_bind hs fun no => follows_pure (Stmt.branch condition yes (some no))

theorem follows_forInitializer (depth : Nat) :
    Follows f (Option.map (·.relined f)) (forInitializer depth) (forInitializer depth) := by
  refine follows_bind (follows_take? _) fun t => ?_
  cases t with
  | none => exact follows_map (follows_expressionStatement depth) fun _ => rfl
  | some t =>
    exact follows_ite (t.kind = .varKw)
      (follows_map (follows_variableDeclaration depth) fun _ => rfl) (follows_pure none)

theorem relined_forLoop (initializer : Option Stmt) (condition increment : Option Expr)
    (body : Stmt) :
    forLoop (initializer.map (·.relined f)) (condition.map (·.relined f))
        (increment.map (·.relined f)) (body.relined f) =
      (forLoop initializer condition increment body).relined f := by
  cases initializer <;> cases condition <;> cases increment <;> rfl

theorem follows_forStatement {statement : Rule Stmt}
    (hs : Follows f (·.relined f) statement statement) (depth : Nat) :
    Follows f (·.relined f) (forStatement statement depth) (forStatement statement depth) := by
  refine follows_bind (follows_expect _ _) fun _ =>
    follows_bind (follows_forInitializer depth) fun initializer =>
      follows_bind (follows_optionalExpression _ depth) fun condition =>
        follows_bind (follows_expect _ _) fun _ =>
          follows_bind (follows_optionalExpression _ depth) fun increment =>
            follows_bind (follows_expect _ _) fun _ => follows_bind hs fun body => ?_
  rw [relined_forLoop]
  exact follows_pure _

theorem follows_statementWith {nested : Rule Stmt} {block : Rule (List Stmt)}
    (hn : Follows f (·.relined f) nested nested)
    (hb : Follows f (Stmt.allRelined f) block block) (depth : Nat) :
    Follows f (·.relined f) (statementWith nested block depth)
      (statementWith nested block depth) := by
  refine follows_bind (follows_take? _) fun t => ?_
  cases t with
  | none => exact follows_expressionStatement depth
  | some t =>
    dsimp only [Option.map, Token.kind_relined]
    split
    · exact follows_forStatement hn depth
    · exact follows_ifStatement hn depth
    · exact follows_bind (follows_expression depth) fun value =>
        follows_bind (follows_expect _ _) fun _ => follows_pure (Stmt.print value)
    · exact follows_bind (follows_optionalExpression _ depth) fun value =>
        follows_bind (follows_expect _ _) fun _ => follows_pure (Stmt.returnFrom t value)
    · exact follows_bind (follows_condition _ _ depth) fun condition =>
        follows_bind hn fun body => follows_pure (Stmt.loop condition body)
    · exact follows_bind (follows_expect _ _) fun _ => follows_pure (Stmt.breakLoop t)
    · exact follows_map hb fun _ => rfl

-- Recovery looks at the kinds of tokens only.
theorem recover_relined (tokens : List Token) :
    recover (tokens.map (·.relined f)) = (recover tokens).map (·.relined f) := by
  induction tokens with
  | nil => rfl
  | cons t rest ih =>
    have hhead : (rest.map (·.relined f)).head?.any startsStatement =
        rest.head?.any startsStatement := by
      cases rest <;> rfl
    rw [List.map_cons, recover, recover, hhead, Token.kind_relined, ih]
    split <;> rfl

theorem follows_recovering {r : Rule Stmt} (hr : Follows f (·.relined f) r r) :
    Follows f (Option.map (·.relined f)) (recovering r) (recovering r) := by
  intro stop tokens
  simp only [recovering, hr stop tokens]
  cases r stop tokens with
  | mk value rest errors =>
    cases value with
    | none => simp [recover_relined]
    | some s => rfl

theorem follows_declarationWith {statement : Rule Stmt} {block : Rule (List Stmt)}
    (hs : Follows f (·.relined f) statement statement)
    (hb : Follows f (Stmt.allRelined f) block block) (depth : Nat) :
    Follows f (Option.map (·.relined f)) (declarationWith statement block depth)
      (declarationWith statement block depth) := by
  rw [declarationWith_eq]
  refine follows_recovering (follows_bind (follows_take? _) fun t => ?_)
  cases t with
  | none => exact hs
  | some t =>
    exact follows_ite (t.kind = .funKw) (follows_functionDeclaration hb depth)
      (follows_variableDeclaration depth)

theorem follows_declarations {declaration : Rule (Option Stmt)}
    (hd : Follows f (Option.map (·.relined f)) declaration declaration) (braceEnds : Bool)
    (rounds : Nat) :
    Follows f (Stmt.allRelined f) (declarations declaration braceEnds rounds)
      (declarations declaration braceEnds rounds) := by
  induction rounds with
  | zero => exact follows_pure []
  | succ rounds ih =>
    refine follows_bind follows_peek fun next => ?_
    dsimp only [id]
    split
    · exact follows_pure []
    · refine follows_bind hd fun first => follows_bind ih fun others => ?_
      have hcons : (first.map (·.relined f)).toList ++ Stmt.allRelined f others =
          Stmt.allRelined f (first.toList ++ others) := by
        cases first <;> rfl
      rw [hcons]
      exact follows_pure _

theorem follows_statement_and_block (depth : Nat) :
    Follows f (·.relined f) (statement depth) (statement depth) ∧
      Follows f (Stmt.allRelined f) (block depth) (block depth) := by
  induction depth with
  | zero => exact ⟨follows_fail _, follows_fail _⟩
  | succ depth ih =>
    have hnested := follows_statementWith ih.1 ih.2 (depth + 1)
    have hdeclaration := follows_declarationWith hnested ih.2 (depth + 1)
    refine ⟨hnested, ?_⟩
    exact follows_bind (follows_declarations hdeclaration true (depth + 1)) fun body =>
      follows_bind (follows_expect _ _) fun _ => follows_pure body

end

theorem splitAtEnd_relined (f : Token → Int) {tokens : List Token}
    (h : ∃ t ∈ tokens, t.kind = .eof) :
    splitAtEnd (tokens.map (·.relined f)) =
      ((splitAtEnd tokens).1.map (·.relined f), (splitAtEnd tokens).2.relined f) := by
  have hmark : tokens.dropWhile (·.kind ≠ .eof) ≠ [] := by
    obtain ⟨t, ht, hk⟩ := h
    intro hnone
    have := List.dropWhile_eq_nil_iff.1 hnone t ht
    simp [hk] at this
  obtain ⟨stop, rest, hstop⟩ := List.exists_cons_of_ne_nil hmark
  have hdrop : (tokens.map (·.relined f)).dropWhile (·.kind ≠ .eof) =
      (tokens.dropWhile (·.kind ≠ .eof)).map (·.relined f) := List.dropWhile_map ..
  have htake : (tokens.map (·.relined f)).takeWhile (·.kind ≠ .eof) =
      (tokens.takeWhile (·.kind ≠ .eof)).map (·.relined f) := List.takeWhile_map ..
  simp only [splitAtEnd, hdrop, htake, hstop]
  rfl

theorem parse_of_splitAtEnd {f : Token → Int} {tokens : List Token}
    (h : splitAtEnd (tokens.map (·.relined f)) =
      ((splitAtEnd tokens).1.map (·.relined f), (splitAtEnd tokens).2.relined f)) :
    parse (tokens.map (·.relined f)) =
      ⟨Stmt.allRelined f (parse tokens).statements,
        (parse tokens).errors.map (·.relined f)⟩ := by
  cases hs : splitAtEnd tokens with
  | mk before stop =>
    rw [hs] at h
    obtain ⟨hstatement, hblock⟩ := follows_statement_and_block (f := f) before.length
    have hread := follows_declarations
      (follows_declarationWith hstatement hblock before.length) false before.length stop before
    simp only [parse, hs, h, List.length_map, declaration, hread]
    cases (declarations (declarationWith (statement before.length) (block before.length)
      before.length) false before.length stop before).value <;> rfl

-- Tokens on other lines are read as the same trees and with the same errors, on other lines.
theorem parse_relined (f : Token → Int) {tokens : List Token} (h : ∃ t ∈ tokens, t.kind = .eof) :
    parse (tokens.map (·.relined f)) =
      ⟨Stmt.allRelined f (parse tokens).statements,
        (parse tokens).errors.map (·.relined f)⟩ :=
  parse_of_splitAtEnd (splitAtEnd_relined f h)

-- On which line the end is does not matter where lines do not, and so not whether it is marked.
theorem splitAtEnd_unlined {tokens : List Token} (hne : tokens ≠ []) :
    splitAtEnd (tokens.map (·.relined fun _ => 0)) =
      ((splitAtEnd tokens).1.map (·.relined fun _ => 0),
        (splitAtEnd tokens).2.relined fun _ => 0) := by
  by_cases hmark : ∃ t ∈ tokens, t.kind = .eof
  · exact splitAtEnd_relined _ hmark
  · have hall : ∀ t ∈ tokens, t.kind ≠ .eof := fun t ht hk => hmark ⟨t, ht, hk⟩
    have hunmarked (ts : List Token) (h : ∀ t ∈ ts, t.kind ≠ .eof) : splitAtEnd ts =
        (ts, ⟨.eof, "", .nil, (ts.getLast?.map Token.line).getD 1⟩) := by
      have htake : ts.takeWhile (·.kind ≠ .eof) = ts := by simpa using h
      have hdrop : ts.dropWhile (·.kind ≠ .eof) = [] := by simpa using h
      rw [splitAtEnd, htake, hdrop]
      rfl
    rw [hunmarked tokens hall, hunmarked (tokens.map _) (by simpa using hall)]
    obtain ⟨last, hlast⟩ := Option.ne_none_iff_exists'.1 (List.getLast?_eq_none_iff.not.2 hne)
    simp [hlast, Token.relined]

end Lox.Syntax
