import Lox.Proofs.Syntax.Reading
import Lox.Syntax.Program

namespace Lox.Syntax

open Rule

-- Runs a rule and goes on behind a broken statement if it gives up.
def recovering (r : Rule Stmt) : Rule (Option Stmt) :=
  fun stop tokens =>
    match r stop tokens with
    | ⟨none, rest, errors⟩ => ⟨some none, recover rest, errors⟩
    | ⟨some s, rest, errors⟩ => ⟨some (some s), rest, errors⟩

-- A declaration without recovery.
def plainDeclaration (statement : Rule Stmt) (block : Rule (List Stmt)) (depth : Nat) :
    Rule Stmt := do
  match ← take? [.funKw, .varKw] with
  | none => statement
  | some token =>
    if token.kind = .funKw then functionDeclaration block depth
    else variableDeclaration depth

theorem declarationWith_eq (statement : Rule Stmt) (block : Rule (List Stmt)) (depth : Nat) :
    declarationWith statement block depth =
      recovering (plainDeclaration statement block depth) := rfl

-- A property of rules that holds of the steps every rule consists of and of everything that is
-- put together from rules with it. The tokens that a rule reads are good, and rules complain at
-- such tokens only.
structure Rule.Stable (good : Token → Prop) (Q : {α : Type} → Rule α → Prop) : Prop where
  pure : ∀ {α : Type} (a : α), Q (pure a : Rule α)
  bind : ∀ {α β : Type} {r : Rule α} {f : α → Rule β}, Q r → (∀ a, Q (f a)) → Q (r >>= f)
  here : ∀ {α : Type} {f : Token → Rule α}, (∀ t, good t → Q (f t)) → Q (here >>= f)
  peek : Q peek
  taken : ∀ {α : Type} kinds {f : Option Token → Rule α}, Q (f none) →
    (∀ t, good t → Q (f (some t))) → Q (take? kinds >>= f)
  takeAll : ∀ kinds, Q (takeAll kinds)
  complain : ∀ {token} fault, good token → Q (complain token fault)
  fail : ∀ {α : Type} fault, Q (fail fault : Rule α)
  recovering : ∀ {r : Rule Stmt}, Q r → Q (recovering r)

-- A property that holds of the steps of rules that read tokens of certain kinds only, and of what
-- is put together from rules with it.
structure Rule.Steady (may : TokenKind → Prop) (good : Token → Prop)
    (Q : {α : Type} → Rule α → Prop) : Prop where
  pure : ∀ {α : Type} (a : α), Q (pure a : Rule α)
  bind : ∀ {α β : Type} {r : Rule α} {f : α → Rule β}, Q r → (∀ a, Q (f a)) → Q (r >>= f)
  here : ∀ {α : Type} {f : Token → Rule α}, (∀ t, good t → Q (f t)) → Q (here >>= f)
  peek : Q peek
  taken : ∀ {α : Type} kinds {f : Option Token → Rule α}, (∀ kind ∈ kinds, may kind) →
    Q (f none) → (∀ t, good t → Q (f (some t))) → Q (take? kinds >>= f)
  takeAll : ∀ kinds, (∀ kind ∈ kinds, may kind) → Q (takeAll kinds)
  complain : ∀ {token} fault, good token → Q (complain token fault)
  fail : ∀ {α : Type} fault, Q (fail fault : Rule α)

-- The kinds of the tokens of which expressions consist.
def expressionKinds : List TokenKind :=
  [.number, .string, .trueKw, .falseKw, .nilKw, .identifier, .leftParen, .rightParen, .comma, .bang,
    .minus, .plus, .slash, .star, .greater, .greaterEqual, .less, .lessEqual, .bangEqual,
    .equalEqual, .andKw, .orKw, .equal]

namespace Rule.Steady

variable {may : TokenKind → Prop} {good : Token → Prop} {Q : {α : Type} → Rule α → Prop}
  (hq : Steady may good Q)
include hq

theorem take? (kinds : List TokenKind) (hk : ∀ kind ∈ kinds, may kind) : Q (take? kinds) := by
  rw [← bind_pure (Rule.take? kinds)]
  exact hq.taken kinds hk (hq.pure none) fun t _ => hq.pure (some t)

theorem map {α β : Type} {r : Rule α} (f : α → β) (hr : Q r) : Q (f <$> r) := by
  rw [map_eq_pure_bind]
  exact hq.bind hr fun a => hq.pure (f a)

theorem expect (kind : TokenKind) (hk : may kind) (fault : SyntaxFault) :
    Q (expect kind fault) := by
  refine hq.bind (hq.take? _ (by simpa using hk)) fun t => ?_
  cases t with
  | none => exact hq.fail fault
  | some t => exact hq.pure t

theorem remark (what : ListItem) (count : Nat) : Q (remark what count) := by
  unfold Syntax.remark
  split
  · exact hq.here fun t ht => hq.complain _ ht
  · exact hq.pure ()

theorem items {α : Type} {item : Rule α} (hi : Q item) (hc : may .comma) (what : ListItem)
    (rounds count : Nat) : Q (items item what rounds count) := by
  induction rounds generalizing count with
  | zero => exact hq.pure []
  | succ rounds ih =>
    rw [items_succ]
    refine hq.bind (hq.remark what count) fun _ => hq.bind hi fun first =>
      hq.bind (hq.take? _ (by simpa using hc)) fun t => ?_
    cases t with
    | none => exact hq.pure _
    | some t => exact hq.bind (ih (count + 1)) fun others => hq.pure _

theorem commaList {α : Type} {item : Rule α} (hi : Q item) (hc : may .comma) (what : ListItem)
    (rounds : Nat) : Q (commaList item what rounds) := by
  refine hq.bind hq.peek fun kind => ?_
  split
  · exact hq.pure []
  · exact hq.items hi hc what (rounds + 1) 0

theorem chainFrom {operand : Rule Expr} (ho : Q operand) (node : Expr → Token → Expr → Expr)
    (kinds : List TokenKind) (hk : ∀ kind ∈ kinds, may kind) (rounds : Nat) (left : Expr) :
    Q (chainFrom operand node kinds rounds left) := by
  induction rounds generalizing left with
  | zero => exact hq.pure left
  | succ rounds ih =>
    refine hq.bind (hq.take? kinds hk) fun t => ?_
    cases t with
    | none => exact hq.pure left
    | some t => exact hq.bind ho fun right => ih _

theorem chain {operand : Rule Expr} (ho : Q operand) (node : Expr → Token → Expr → Expr)
    (kinds : List TokenKind) (hk : ∀ kind ∈ kinds, may kind) (rounds : Nat) :
    Q (chain operand node kinds rounds) :=
  hq.bind ho fun left => hq.chainFrom ho node kinds hk rounds left

variable (hmay : ∀ kind ∈ expressionKinds, may kind)
include hmay

theorem primary {nested : Rule Expr} (hn : Q nested) : Q (primary nested) := by
  refine hq.bind (hq.take? _ fun kind hk => hmay kind ?_) fun t => ?_
  · revert hk
    cases kind <;> decide
  · cases t with
    | none => exact hq.fail _
    | some t =>
      dsimp only
      split
      all_goals first
        | exact hq.pure _
        | exact hq.bind hn fun inner =>
            hq.bind (hq.expect _ (hmay _ (by decide)) _) fun _ => hq.pure _

theorem callsFrom {nested : Rule Expr} (hn : Q nested) (rounds : Nat) (callee : Expr) :
    Q (callsFrom nested rounds callee) := by
  induction rounds generalizing callee with
  | zero => exact hq.pure callee
  | succ rounds ih =>
    have hopening : may .leftParen := hmay _ (by decide)
    refine hq.bind (hq.take? _ (by simpa using hopening)) fun t => ?_
    cases t with
    | none => exact hq.pure callee
    | some t =>
      exact hq.bind (hq.commaList hn (hmay _ (by decide)) _ rounds) fun arguments =>
        hq.bind (hq.expect _ (hmay _ (by decide)) _) fun paren => ih _

theorem assignment {nested : Rule Expr} (hn : Q nested) (rounds : Nat) :
    Q (assignment nested rounds) := by
  have hcall : Q (call nested rounds) :=
    hq.bind (hq.primary hmay hn) fun e => hq.callsFrom hmay hn rounds e
  have hkinds : ∀ kinds : List TokenKind, (∀ kind ∈ kinds, kind ∈ expressionKinds) →
      ∀ kind ∈ kinds, may kind := fun kinds hk kind hmem => hmay kind (hk kind hmem)
  have hunary : Q (unary nested rounds) :=
    hq.bind (hq.takeAll _ (hkinds _ (by decide))) fun operators =>
      hq.bind hcall fun operand => hq.pure _
  have hfactor : Q (factor nested rounds) := hq.chain hunary _ _ (hkinds _ (by decide)) rounds
  have hterm : Q (term nested rounds) := hq.chain hfactor _ _ (hkinds _ (by decide)) rounds
  have hcomparison : Q (comparison nested rounds) :=
    hq.chain hterm _ _ (hkinds _ (by decide)) rounds
  have hequality : Q (equality nested rounds) :=
    hq.chain hcomparison _ _ (hkinds _ (by decide)) rounds
  have hconjunction : Q (conjunction nested rounds) :=
    hq.chain hequality _ _ (hkinds _ (by decide)) rounds
  have hdisjunction : Q (disjunction nested rounds) :=
    hq.chain hconjunction _ _ (hkinds _ (by decide)) rounds
  refine hq.bind hdisjunction fun target =>
    hq.taken _ (hkinds _ (by decide)) (hq.pure target) fun equal hequal =>
      hq.bind hn fun value => ?_
  cases target with
  | «variable» name => exact hq.pure _
  | _ => exact hq.bind (hq.complain _ hequal) fun _ => hq.pure _

theorem expression (depth : Nat) : Q (expression depth) := by
  induction depth with
  | zero => exact hq.fail _
  | succ depth ih => exact hq.assignment hmay ih depth

theorem optionalExpression (terminator : TokenKind) (depth : Nat) :
    Q (optionalExpression terminator depth) := by
  refine hq.bind hq.peek fun kind => ?_
  split
  · exact hq.pure none
  · exact hq.bind (hq.expression hmay depth) fun e => hq.pure _

theorem condition (paren close : SyntaxFault) (depth : Nat) : Q (condition paren close depth) :=
  hq.bind (hq.expect _ (hmay _ (by decide)) _) fun _ =>
    hq.bind (hq.expression hmay depth) fun _ =>
      hq.bind (hq.expect _ (hmay _ (by decide)) _) fun _ => hq.pure _

end Rule.Steady

namespace Rule.Stable

variable {good : Token → Prop} {Q : {α : Type} → Rule α → Prop} (hq : Stable good Q)
include hq

theorem steady : Steady (fun _ => True) good Q where
  pure := hq.pure
  bind := hq.bind
  here := hq.here
  peek := hq.peek
  taken kinds _ _ hnone hsome := hq.taken kinds hnone hsome
  takeAll kinds _ := hq.takeAll kinds
  complain := hq.complain
  fail := hq.fail

theorem take? (kinds : List TokenKind) : Q (take? kinds) :=
  hq.steady.take? kinds fun _ _ => trivial

theorem map {α β : Type} {r : Rule α} (f : α → β) (hr : Q r) : Q (f <$> r) :=
  hq.steady.map f hr

theorem expect (kind : TokenKind) (fault : SyntaxFault) : Q (expect kind fault) :=
  hq.steady.expect kind trivial fault

theorem remark (what : ListItem) (count : Nat) : Q (remark what count) :=
  hq.steady.remark what count

theorem items {α : Type} {item : Rule α} (hi : Q item) (what : ListItem) (rounds count : Nat) :
    Q (items item what rounds count) :=
  hq.steady.items hi trivial what rounds count

theorem commaList {α : Type} {item : Rule α} (hi : Q item) (what : ListItem) (rounds : Nat) :
    Q (commaList item what rounds) :=
  hq.steady.commaList hi trivial what rounds

theorem chainFrom {operand : Rule Expr} (ho : Q operand) (node : Expr → Token → Expr → Expr)
    (kinds : List TokenKind) (rounds : Nat) (left : Expr) :
    Q (chainFrom operand node kinds rounds left) :=
  hq.steady.chainFrom ho node kinds (fun _ _ => trivial) rounds left

theorem chain {operand : Rule Expr} (ho : Q operand) (node : Expr → Token → Expr → Expr)
    (kinds : List TokenKind) (rounds : Nat) : Q (chain operand node kinds rounds) :=
  hq.steady.chain ho node kinds (fun _ _ => trivial) rounds

theorem primary {nested : Rule Expr} (hn : Q nested) : Q (primary nested) :=
  hq.steady.primary (fun _ _ => trivial) hn

theorem callsFrom {nested : Rule Expr} (hn : Q nested) (rounds : Nat) (callee : Expr) :
    Q (callsFrom nested rounds callee) :=
  hq.steady.callsFrom (fun _ _ => trivial) hn rounds callee

theorem expression (depth : Nat) : Q (expression depth) :=
  hq.steady.expression (fun _ _ => trivial) depth

theorem optionalExpression (terminator : TokenKind) (depth : Nat) :
    Q (optionalExpression terminator depth) :=
  hq.steady.optionalExpression (fun _ _ => trivial) terminator depth

theorem condition (paren close : SyntaxFault) (depth : Nat) : Q (condition paren close depth) :=
  hq.steady.condition (fun _ _ => trivial) paren close depth

theorem expressionStatement (depth : Nat) : Q (expressionStatement depth) :=
  hq.bind (hq.expression depth) fun _ => hq.bind (hq.expect _ _) fun _ => hq.pure _

theorem variableDeclaration (depth : Nat) : Q (variableDeclaration depth) := by
  refine hq.bind (hq.expect _ _) fun name => hq.bind (hq.take? _) fun t => ?_
  cases t with
  | none => exact hq.bind (hq.pure none) fun _ => hq.bind (hq.expect _ _) fun _ => hq.pure _
  | some equal =>
    exact hq.bind (hq.map some (hq.expression depth)) fun _ =>
      hq.bind (hq.expect _ _) fun _ => hq.pure _

theorem functionDeclaration {block : Rule (List Stmt)} (hb : Q block) (depth : Nat) :
    Q (functionDeclaration block depth) :=
  hq.bind (hq.expect _ _) fun _ => hq.bind (hq.expect _ _) fun _ =>
    hq.bind (hq.commaList (hq.expect _ _) _ depth) fun _ => hq.bind (hq.expect _ _) fun _ =>
      hq.bind (hq.expect _ _) fun _ => hq.bind hb fun _ => hq.pure _

theorem ifStatement {statement : Rule Stmt} (hs : Q statement) (depth : Nat) :
    Q (ifStatement statement depth) := by
  refine hq.bind (hq.condition _ _ depth) fun _ => hq.bind hs fun _ =>
    hq.bind (hq.take? _) fun t => ?_
  cases t with
  | none => exact hq.pure _
  | some t => exact hq.bind hs fun no => hq.pure _

theorem forInitializer (depth : Nat) : Q (forInitializer depth) := by
  refine hq.bind (hq.take? _) fun t => ?_
  cases t with
  | none => exact hq.map some (hq.expressionStatement depth)
  | some t =>
    dsimp only
    split
    · exact hq.map some (hq.variableDeclaration depth)
    · exact hq.pure none

theorem forStatement {statement : Rule Stmt} (hs : Q statement) (depth : Nat) :
    Q (forStatement statement depth) :=
  hq.bind (hq.expect _ _) fun _ => hq.bind (hq.forInitializer depth) fun _ =>
    hq.bind (hq.optionalExpression _ depth) fun _ => hq.bind (hq.expect _ _) fun _ =>
      hq.bind (hq.optionalExpression _ depth) fun _ => hq.bind (hq.expect _ _) fun _ =>
        hq.bind hs fun _ => hq.pure _

theorem statementWith {nested : Rule Stmt} {block : Rule (List Stmt)} (hn : Q nested)
    (hb : Q block) (depth : Nat) : Q (statementWith nested block depth) := by
  refine hq.bind (hq.take? _) fun t => ?_
  cases t with
  | none => exact hq.expressionStatement depth
  | some t =>
    dsimp only
    split
    · exact hq.forStatement hn depth
    · exact hq.ifStatement hn depth
    · exact hq.bind (hq.expression depth) fun _ => hq.bind (hq.expect _ _) fun _ => hq.pure _
    · exact hq.bind (hq.optionalExpression _ depth) fun _ =>
        hq.bind (hq.expect _ _) fun _ => hq.pure _
    · exact hq.bind (hq.condition _ _ depth) fun _ => hq.bind hn fun _ => hq.pure _
    · exact hq.bind (hq.expect _ _) fun _ => hq.pure _
    · exact hq.map _ hb

theorem declarations {declaration : Rule (Option Stmt)} (hd : Q declaration) (braceEnds : Bool)
    (rounds : Nat) : Q (declarations declaration braceEnds rounds) := by
  induction rounds with
  | zero => exact hq.pure []
  | succ rounds ih =>
    refine hq.bind hq.peek fun next => ?_
    split
    · exact hq.pure []
    · exact hq.bind hd fun first => hq.bind ih fun others => hq.pure _

theorem plainDeclaration {statement : Rule Stmt} {block : Rule (List Stmt)} (hs : Q statement)
    (hb : Q block) (depth : Nat) : Q (plainDeclaration statement block depth) := by
  refine hq.bind (hq.take? _) fun t => ?_
  cases t with
  | none => exact hs
  | some t =>
    dsimp only
    split
    · exact hq.functionDeclaration hb depth
    · exact hq.variableDeclaration depth

theorem declarationWith {statement : Rule Stmt} {block : Rule (List Stmt)} (hs : Q statement)
    (hb : Q block) (depth : Nat) : Q (declarationWith statement block depth) := by
  rw [declarationWith_eq]
  exact hq.recovering (hq.plainDeclaration hs hb depth)

theorem statement_and_block (depth : Nat) : Q (statement depth) ∧ Q (block depth) := by
  induction depth with
  | zero => exact ⟨hq.fail _, hq.fail _⟩
  | succ depth ih =>
    have hnested := hq.statementWith ih.1 ih.2 (depth + 1)
    refine ⟨hnested, ?_⟩
    exact hq.bind (hq.declarations (hq.declarationWith hnested ih.2 (depth + 1)) true (depth + 1))
      fun _ => hq.bind (hq.expect _ _) fun _ => hq.pure _

end Rule.Stable

-- A rule that gives up has recorded an error.
def Rule.Loud {α : Type} (r : Rule α) : Prop :=
  ∀ stop tokens, (r stop tokens).value = none → (r stop tokens).errors ≠ []

theorem Rule.Loud.bind {α β : Type} {r : Rule α} {f : α → Rule β} (hr : r.Loud)
    (hf : ∀ a, (f a).Loud) : (r >>= f).Loud := by
  intro stop tokens h
  simp only [Bind.bind] at h ⊢
  cases hrun : r stop tokens with
  | mk value rest errors =>
    cases value with
    | none => simpa [hrun] using hr stop tokens
    | some a =>
      rw [hrun] at h
      simp only [ne_eq, List.append_eq_nil_iff, not_and]
      exact fun _ => hf a stop rest h

theorem stable_loud : Rule.Stable (fun _ => True) Loud where
  pure a stop tokens h := by cases h
  bind hr hf := hr.bind hf
  here hf := by
    refine Loud.bind (fun stop tokens h => ?_) fun t => hf t trivial
    cases h
  peek stop tokens h := by cases h
  taken kinds f hnone hsome := by
    refine Loud.bind (fun stop tokens h => ?_) fun t => ?_
    · unfold Rule.take? at h
      split at h
      · cases h
      · split at h <;> cases h
    · cases t with
      | none => exact hnone
      | some t => exact hsome t trivial
  takeAll kinds stop tokens h := by cases h
  complain fault _ stop tokens h := by cases h
  fail fault stop tokens _ := by simp [Rule.fail]
  recovering {r} _ stop tokens h := by
    unfold Syntax.recovering at h
    split at h <;> cases h

end Lox.Syntax
