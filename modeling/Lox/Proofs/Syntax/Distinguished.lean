import Lox.Proofs.Syntax.Told

namespace Lox

open Syntax

-- What an expression is, as far as the head of its form tells. Names and literals have no head.
inductive ExprSort where
  | assign
  | binary
  | call
  | grouping
  | logical
  | unary
  | atom
deriving DecidableEq

def Expr.sort : Expr → ExprSort
  | .assign _ _ => .assign
  | .binary _ _ _ => .binary
  | .call _ _ _ => .call
  | .grouping _ => .grouping
  | .literal _ => .atom
  | .logical _ _ _ => .logical
  | .unary _ _ => .unary
  | .variable _ => .atom

-- What the head of a form and the number of its parts tell. An operator with one part is unary,
-- and those with two are told by their text.
def Syntax.sortOf (head : String) (parts : Nat) : ExprSort :=
  if head = "assign" then .assign
  else if head = "call" then .call
  else if head = "group" then .grouping
  else if head = "or" ∨ head = "and" then .logical
  else if parts = 1 then .unary
  else .binary

def Syntax.Sexp.sort : Sexp → ExprSort
  | .list head parts => sortOf head parts.length
  | _ => .atom

theorem sort_operator (sort : ExprSort) (count : Nat) {operator : Token} {kinds : List TokenKind}
    {parts : List Sexp} (h : operator.Of Token.Legible kinds) (hcount : parts.length = count)
    (hkinds : ∀ kind ∈ kinds, ¬ kind.Open ∧ sortOf kind.spelling count = sort) :
    (Sexp.list operator.lexeme parts).sort = sort := by
  rw [Sexp.sort, hcount, h.lexeme_eq fun kind hk => (hkinds kind hk).1]
  exact (hkinds _ h.kind).2

theorem Literal.sort_sexp (value : Literal) : value.sexp.sort = .atom := by
  cases value <;> rfl

-- The form of an expression tells what it is.
theorem Expr.MadeOf.sort_sexp {e : Expr} (h : e.MadeOf Token.Legible) : e.sexp.sort = e.sort := by
  cases e with
  | assign name value => rfl
  | binary left operator right => exact sort_operator .binary 2 h.1 rfl (by decide)
  | call callee paren arguments => rfl
  | grouping inner => rfl
  | literal value => exact value.sort_sexp
  | logical left operator right => exact sort_operator .logical 2 h.1 rfl (by decide)
  | unary operator operand => exact sort_operator .unary 1 h.1 rfl (by decide)
  | «variable» name => rfl

mutual

-- Expressions with the same form differ in nothing but lines.
theorem Expr.MadeOf.unique {e e' : Expr} (h : e.MadeOf Token.Legible)
    (h' : e'.MadeOf Token.Legible) (heq : e.sexp = e'.sexp) :
    (e.relined fun _ => 0) = e'.relined fun _ => 0 := by
  have hsort : e.sort = e'.sort := by rw [← h.sort_sexp, ← h'.sort_sexp, heq]
  cases e with
  | assign name value =>
    cases e' with
    | assign name' value' =>
      simp only [Expr.sexp, Sexp.list.injEq, Sexp.word.injEq, List.cons.injEq, true_and,
        and_true] at heq
      rw [Expr.relined, Expr.relined, h.1.name_eq h'.1 heq.1, Expr.MadeOf.unique h.2 h'.2 heq.2]
    | _ => cases hsort
  | binary left operator right =>
    cases e' with
    | binary left' operator' right' =>
      simp only [Expr.sexp, Sexp.list.injEq, List.cons.injEq, and_true] at heq
      rw [Expr.relined, Expr.relined, h.1.operator_eq (by decide) h'.1 heq.1,
        Expr.MadeOf.unique h.2.1 h'.2.1 heq.2.1, Expr.MadeOf.unique h.2.2 h'.2.2 heq.2.2]
    | _ => cases hsort
  | call callee paren arguments =>
    cases e' with
    | call callee' paren' arguments' =>
      simp only [Expr.sexp, Sexp.list.injEq, List.cons.injEq, true_and] at heq
      rw [Expr.relined, Expr.relined, h.1.keyword_eq h'.1 (by decide),
        Expr.MadeOf.unique h.2.1 h'.2.1 heq.1, Expr.AllMadeOf.unique h.2.2 h'.2.2 heq.2]
    | _ => cases hsort
  | grouping inner =>
    cases e' with
    | grouping inner' =>
      simp only [Expr.sexp, Sexp.list.injEq, List.cons.injEq, true_and, and_true] at heq
      have hinner : inner.MadeOf Token.Legible := h
      have hinner' : inner'.MadeOf Token.Legible := h'
      rw [Expr.relined, Expr.relined, Expr.MadeOf.unique hinner hinner' heq]
    | _ => cases hsort
  | literal value =>
    cases e' with
    | literal value' =>
      rw [(Literal.MadeOf.legible h).unique (Literal.MadeOf.legible h') heq]
    | «variable» name' => exact absurd heq ((Literal.MadeOf.legible h).ne_name h')
    | _ => cases hsort
  | logical left operator right =>
    cases e' with
    | logical left' operator' right' =>
      simp only [Expr.sexp, Sexp.list.injEq, List.cons.injEq, and_true] at heq
      rw [Expr.relined, Expr.relined, h.1.operator_eq (by decide) h'.1 heq.1,
        Expr.MadeOf.unique h.2.1 h'.2.1 heq.2.1, Expr.MadeOf.unique h.2.2 h'.2.2 heq.2.2]
    | _ => cases hsort
  | unary operator operand =>
    cases e' with
    | unary operator' operand' =>
      simp only [Expr.sexp, Sexp.list.injEq, List.cons.injEq, and_true] at heq
      rw [Expr.relined, Expr.relined, h.1.operator_eq (by decide) h'.1 heq.1,
        Expr.MadeOf.unique h.2 h'.2 heq.2]
    | _ => cases hsort
  | «variable» name =>
    cases e' with
    | literal value' => exact absurd heq.symm ((Literal.MadeOf.legible h').ne_name h)
    | «variable» name' =>
      rw [Expr.relined, Expr.relined, Token.Of.name_eq h h' (Sexp.word.inj heq)]
    | _ => cases hsort

theorem Expr.AllMadeOf.unique {es es' : List Expr} (h : Expr.AllMadeOf Token.Legible es)
    (h' : Expr.AllMadeOf Token.Legible es') (heq : Expr.sexps es = Expr.sexps es') :
    Expr.allRelined (fun _ => 0) es = Expr.allRelined (fun _ => 0) es' := by
  cases es with
  | nil =>
    cases es' with
    | nil => rfl
    | cons e' es' => cases heq
  | cons e es =>
    cases es' with
    | nil => cases heq
    | cons e' es' =>
      obtain ⟨hfirst, hrest⟩ := List.cons.inj heq
      rw [Expr.allRelined, Expr.allRelined, Expr.MadeOf.unique h.1 h'.1 hfirst,
        Expr.AllMadeOf.unique h.2 h'.2 hrest]

end

-- The head of a statement's form, which tells what it is.
def Syntax.Sexp.head : Sexp → String
  | .list head _ | .nest head _ _ _ => head
  | .word _ | .quoted _ => ""

def Stmt.head : Stmt → String
  | .block _ => "block"
  | .breakLoop _ => "break"
  | .expression _ => "expr_stmt"
  | .function _ _ _ => "fun"
  | .branch _ _ _ => "if"
  | .print _ => "print"
  | .returnFrom _ _ => "return"
  | .declare _ _ => "var"
  | .loop _ _ => "while"
  | .jump _ => "jump"

theorem Stmt.MadeOf.head_sexp {s : Stmt} (h : s.MadeOf Token.Legible) : s.sexp.head = s.head := by
  cases s with
  | branch condition yes no => cases no <;> rfl
  | returnFrom keyword value => cases value <;> rfl
  | declare name initializer => cases initializer <;> rfl
  | jump kind => exact h.elim
  | _ => rfl

mutual

-- The head of the form leaves one kind of statement, and its parts tell the optional ones.
theorem Stmt.MadeOf.unique {s s' : Stmt} (h : s.MadeOf Token.Legible)
    (h' : s'.MadeOf Token.Legible) (heq : s.sexp = s'.sexp) :
    (s.relined fun _ => 0) = s'.relined fun _ => 0 := by
  have hhead : s.head = s'.head := by rw [← h.head_sexp, ← h'.head_sexp, heq]
  cases s' with
  | jump kind => exact h'.elim
  | block body' =>
    cases s with
    | block body =>
      have hbody : Stmt.AllMadeOf Token.Legible body := h
      have hbody' : Stmt.AllMadeOf Token.Legible body' := h'
      simp only [Stmt.sexp, Sexp.nest.injEq, true_and, and_true] at heq
      rw [Stmt.relined, Stmt.relined, Stmt.AllMadeOf.unique hbody hbody' heq]
    | _ => simp [Stmt.head] at hhead
  | breakLoop keyword' =>
    cases s with
    | breakLoop keyword =>
      rw [Stmt.relined, Stmt.relined, Token.Of.keyword_eq h h' (by decide)]
    | _ => simp [Stmt.head] at hhead
  | expression value' =>
    cases s with
    | expression value =>
      have hvalue : value.MadeOf Token.Legible := h
      simp only [Stmt.sexp, Sexp.list.injEq, List.cons.injEq, true_and, and_true] at heq
      rw [Stmt.relined, Stmt.relined, hvalue.unique h' heq]
    | _ => simp [Stmt.head] at hhead
  | function name' parameters' body' =>
    cases s with
    | function name parameters body =>
      simp only [Stmt.sexp, Sexp.nest.injEq, true_and, and_true] at heq
      obtain ⟨hlexeme, hlexemes⟩ := headingOf_unique h.1.isWord h'.1.isWord
        (fun p hp => (h.2.1 p hp).isWord) (fun p hp => (h'.2.1 p hp).isWord) heq.1
      rw [Stmt.relined, Stmt.relined, h.1.name_eq h'.1 hlexeme, names_eq h.2.1 h'.2.1 hlexemes,
        Stmt.AllMadeOf.unique h.2.2 h'.2.2 heq.2]
    | _ => simp [Stmt.head] at hhead
  | branch condition' yes' no' =>
    cases s with
    | branch condition yes no =>
      cases no with
      | none =>
        cases no' with
        | none =>
          simp only [Stmt.sexp, Sexp.list.injEq, List.cons.injEq, true_and, and_true] at heq
          rw [Stmt.relined, Stmt.relined, h.1.unique h'.1 heq.1, Stmt.MadeOf.unique h.2 h'.2 heq.2]
        | some no' => simp [Stmt.sexp] at heq
      | some no =>
        cases no' with
        | none => simp [Stmt.sexp] at heq
        | some no' =>
          simp only [Stmt.sexp, Sexp.list.injEq, List.cons.injEq, true_and, and_true] at heq
          rw [Stmt.relined, Stmt.relined, h.1.unique h'.1 heq.1,
            Stmt.MadeOf.unique h.2.1 h'.2.1 heq.2.1, Stmt.MadeOf.unique h.2.2 h'.2.2 heq.2.2]
    | _ => simp [Stmt.head] at hhead
  | print value' =>
    cases s with
    | print value =>
      have hvalue : value.MadeOf Token.Legible := h
      simp only [Stmt.sexp, Sexp.list.injEq, List.cons.injEq, true_and, and_true] at heq
      rw [Stmt.relined, Stmt.relined, hvalue.unique h' heq]
    | _ => simp [Stmt.head] at hhead
  | returnFrom keyword' value' =>
    cases s with
    | returnFrom keyword value =>
      cases value with
      | none =>
        cases value' with
        | none => rw [Stmt.relined, Stmt.relined, Token.Of.keyword_eq h h' (by decide)]
        | some value' => simp [Stmt.sexp] at heq
      | some value =>
        cases value' with
        | none => simp [Stmt.sexp] at heq
        | some value' =>
          simp only [Stmt.sexp, Sexp.list.injEq, List.cons.injEq, true_and, and_true] at heq
          rw [Stmt.relined, Stmt.relined, h.1.keyword_eq h'.1 (by decide), Option.map_some,
            Option.map_some, h.2.unique h'.2 heq]
    | _ => simp [Stmt.head] at hhead
  | declare name' initializer' =>
    cases s with
    | declare name initializer =>
      cases initializer with
      | none =>
        cases initializer' with
        | none =>
          simp only [Stmt.sexp, Sexp.list.injEq, List.cons.injEq, Sexp.word.injEq, true_and,
            and_true] at heq
          rw [Stmt.relined, Stmt.relined, Token.Of.name_eq h h' heq]
        | some initializer' => simp [Stmt.sexp] at heq
      | some initializer =>
        cases initializer' with
        | none => simp [Stmt.sexp] at heq
        | some initializer' =>
          simp only [Stmt.sexp, Sexp.list.injEq, List.cons.injEq, Sexp.word.injEq, true_and,
            and_true] at heq
          rw [Stmt.relined, Stmt.relined, h.1.name_eq h'.1 heq.1, Option.map_some,
            Option.map_some, h.2.unique h'.2 heq.2]
    | _ => simp [Stmt.head] at hhead
  | loop condition' body' =>
    cases s with
    | loop condition body =>
      simp only [Stmt.sexp, Sexp.list.injEq, List.cons.injEq, true_and, and_true] at heq
      rw [Stmt.relined, Stmt.relined, h.1.unique h'.1 heq.1, Stmt.MadeOf.unique h.2 h'.2 heq.2]
    | _ => simp [Stmt.head] at hhead

theorem Stmt.AllMadeOf.unique {ss ss' : List Stmt} (h : Stmt.AllMadeOf Token.Legible ss)
    (h' : Stmt.AllMadeOf Token.Legible ss') (heq : Stmt.sexps ss = Stmt.sexps ss') :
    Stmt.allRelined (fun _ => 0) ss = Stmt.allRelined (fun _ => 0) ss' := by
  cases ss with
  | nil =>
    cases ss' with
    | nil => rfl
    | cons s' ss' => cases heq
  | cons s ss =>
    cases ss' with
    | nil => cases heq
    | cons s' ss' =>
      obtain ⟨hfirst, hrest⟩ := List.cons.inj heq
      rw [Stmt.allRelined, Stmt.allRelined, Stmt.MadeOf.unique h.1 h'.1 hfirst,
        Stmt.AllMadeOf.unique h.2 h'.2 hrest]

end

namespace Syntax

-- The statements of a text are made of its tokens.
theorem madeOf_parse {source : String} (h : (parse (Source.scan source).tokens).errors = [])
    (hp : ∀ t ∈ (Source.scan source).tokens, t.literal.Presentable) :
    Stmt.AllMadeOf Token.Legible (parse (Source.scan source).tokens).statements := by
  obtain ⟨body, hbody, htrees⟩ := parse_sound h
  rw [htrees]
  refine hbody.madeOf fun t ht => ?_
  have hscan : t ∈ (Source.scan source).tokens := List.takeWhile_subset _ ht
  exact Source.legible_of_mem_scan hscan (hp t hscan)

-- The outline tells programs apart: what it shows alike differs in nothing but the lines of tokens.
theorem outline_distinguishes {source source' : String}
    (h : (parse (Source.scan source).tokens).errors = [])
    (h' : (parse (Source.scan source').tokens).errors = [])
    (hp : ∀ t ∈ (Source.scan source).tokens, t.literal.Presentable)
    (hp' : ∀ t ∈ (Source.scan source').tokens, t.literal.Presentable)
    (heq : outline (parse (Source.scan source).tokens).statements =
      outline (parse (Source.scan source').tokens).statements) :
    Stmt.allRelined (fun _ => 0) (parse (Source.scan source).tokens).statements =
      Stmt.allRelined (fun _ => 0) (parse (Source.scan source').tokens).statements := by
  have hmade := madeOf_parse h hp
  have hmade' := madeOf_parse h' hp'
  rw [outline_eq hmade, outline_eq hmade'] at heq
  exact hmade.unique hmade' (Sexp.join_unique hmade.proper hmade'.proper (String.ofList_inj.1 heq))

-- A string over two lines in a block in a function, and a number that is written in two ways.
theorem outline_distinguishes_nested :
    let source := "fun f(a) \x7b if (a) \x7b print \"x\n (y\"; \x7d return -1.50; \x7d"
    let source' := "fun f (a) \x7b\nif (a)\n\x7bprint \"x\n (y\";\x7d\nreturn - 1.5;\n\x7d"
    outline (parse (Source.scan source).tokens).statements =
      outline (parse (Source.scan source').tokens).statements ∧
    Stmt.allRelined (fun _ => 0) (parse (Source.scan source).tokens).statements =
      Stmt.allRelined (fun _ => 0) (parse (Source.scan source').tokens).statements := by
  intro source source'
  have heq : outline (parse (Source.scan source).tokens).statements =
      outline (parse (Source.scan source').tokens).statements := by
    decide +kernel
  exact ⟨heq, outline_distinguishes (by decide +kernel) (by decide +kernel) (by decide +kernel)
    (by decide +kernel) heq⟩

end Syntax

end Lox
