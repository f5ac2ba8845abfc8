import Lox.Proofs.Number.Distinct
import Lox.Proofs.Source.Legible
import Lox.Proofs.Syntax.MadeOf
import Lox.Proofs.Syntax.Parsed
import Lox.Proofs.Syntax.Relined
import Lox.Proofs.Syntax.Rendered
import Lox.Proofs.Text.OneLine

namespace Lox

open Syntax

-- The form of a literal in an outline.
def Literal.sexp : Literal → Sexp
  | .string text => .quoted text.toList
  | value => .word value.outline

mutual

def Expr.sexp : Expr → Sexp
  | .assign name value => .list "assign" [.word name.lexeme.toList, value.sexp]
  | .binary left operator right => .list operator.lexeme [left.sexp, right.sexp]
  | .call callee _ arguments => .list "call" (callee.sexp :: Expr.sexps arguments)
  | .grouping inner => .list "group" [inner.sexp]
  | .literal value => value.sexp
  | .logical left operator right => .list operator.lexeme [left.sexp, right.sexp]
  | .unary operator operand => .list operator.lexeme [operand.sexp]
  | .variable name => .word name.lexeme.toList

def Expr.sexps : List Expr → List Sexp
  | [] => []
  | e :: es => e.sexp :: Expr.sexps es

end

-- Several words with a comma between each two, and what stands after the last one.
def Syntax.signature (words : List (List Char)) : List Char :=
  join ", ".toList words ++ ") \x7b".toList

-- What stands after the head of a function's form on the same line.
def Syntax.headingOf (name : Token) (parameters : List Token) : List Char :=
  ' ' :: (name.lexeme.toList ++ '(' :: signature (parameters.map (·.lexeme.toList)))

mutual

def Stmt.sexp : Stmt → Sexp
  | .block body => .nest "block" [] (Stmt.sexps body) ")".toList
  | .breakLoop _ => .list "break" []
  | .expression value => .list "expr_stmt" [value.sexp]
  | .function name parameters body =>
    .nest "fun" (headingOf name parameters) (Stmt.sexps body) "\x7d)".toList
  | .branch condition yes none => .list "if" [condition.sexp, yes.sexp]
  | .branch condition yes (some no) =>
    .list "if" [condition.sexp, yes.sexp, .word "else".toList, no.sexp]
  | .print value => .list "print" [value.sexp]
  | .returnFrom _ none => .list "return" []
  | .returnFrom _ (some value) => .list "return" [value.sexp]
  | .declare name none => .list "var" [.word name.lexeme.toList]
  | .declare name (some value) => .list "var" [.word name.lexeme.toList, value.sexp]
  | .loop condition body => .list "while" [condition.sexp, body.sexp]
  | .jump .breakLoop => .list "break" []
  | .jump .returnNil => .list "return" []

def Stmt.sexps : List Stmt → List Sexp
  | [] => []
  | s :: ss => s.sexp :: Stmt.sexps ss

end

-- What program text gives as a literal, if it can be shown.
def Literal.Legible : Literal → Prop
  | .nil | .bool _ => True
  | .number value => Number.magnitude value < Number.infinity
  | .string text => Quotable text.toList
  | .primitive _ | .undefined _ => False

theorem Literal.MadeOf.legible {value : Literal} (h : value.MadeOf Token.Legible) :
    value.Legible := by
  obtain rfl | ⟨t, ht, hv⟩ := h
  · trivial
  · have hpresentable := ht.presentable
    have hspelled := ht.spelled
    unfold constant? at hv
    split at hv
    any_goals obtain rfl := Option.some.inj hv
    · next hk =>
      simp only [Token.Spelled, hk] at hspelled
      obtain ⟨x, hx⟩ := hspelled
      rw [hx] at hpresentable ⊢
      exact hpresentable
    · next hk =>
      simp only [Token.Spelled, hk] at hspelled
      obtain ⟨text, htext, -⟩ := hspelled
      have hunquoted := ht.unquoted text htext
      rw [htext] at hpresentable ⊢
      refine fun c hc => ⟨?_, hpresentable c hc⟩
      rintro rfl
      exact hunquoted hc
    · trivial
    · trivial
    · trivial
    · cases hv

namespace Syntax

section

variable {text : List Char}

theorem isBare_of_isWordPart {c : Char} (h : Source.isWordPart c = true) : isBare c = true := by
  have hother : [' ', '(', ')', '"', ','].any Source.isWordPart = false := by decide
  rw [isBare, Text.isLineBreak_eq_false h (by decide), Bool.false_or, Bool.not_eq_true',
    Bool.eq_false_iff]
  intro hmem
  exact List.any_eq_false.1 hother c (List.contains_iff_mem.1 hmem) h

theorem isWord_of_word (h : Source.Word text) : IsWord text := by
  cases text with
  | nil => exact h.elim
  | cons c rest =>
    refine ⟨by simp, List.forall_mem_cons.2 ⟨isBare_of_isWordPart ?_, fun d hd => ?_⟩⟩
    · simp [Source.isWordPart, h.1]
    · exact isBare_of_isWordPart (h.2 d hd)

theorem isBare_of_mem_digitsOf {b : Nat} {c : Char} (h : c ∈ Number.digitsOf b) :
    isBare c = true := by
  obtain h | rfl := Number.mem_digitsOf h
  · exact isBare_of_isWordPart (by simp [Source.isWordPart, h])
  · decide

-- A finite number is shown as a word that starts with a digit or a minus.
theorem isWord_display {x : Float} (h : Number.magnitude x < Number.infinity) :
    IsWord (Number.display x).toList := by
  obtain ⟨c, rest, hc, -⟩ := Number.digitsOf_head (Number.magnitude x)
  rw [Number.display_of_finite h]
  split
  · exact ⟨by simp, List.forall_mem_cons.2 ⟨by decide, fun c hc => isBare_of_mem_digitsOf hc⟩⟩
  · exact ⟨by simp [hc], fun c hc => isBare_of_mem_digitsOf hc⟩

theorem display_ne_word {x : Float} (h : Number.magnitude x < Number.infinity)
    (hword : Source.Word text) : (Number.display x).toList ≠ text := by
  rintro rfl
  obtain ⟨c, rest, hc, hdigit⟩ := Number.digitsOf_head (Number.magnitude x)
  rw [Number.display_of_finite h] at hword
  split at hword
  · exact absurd hword.1 (by decide)
  · rw [hc] at hword
    have hstart := Source.not_isDigit_of_wordStart hword.1
    rw [hdigit] at hstart
    cases hstart

end

theorem isHeading_headingOf {name : Token} {parameters : List Token}
    (hname : IsWord name.lexeme.toList) (hparameters : ∀ p ∈ parameters, IsWord p.lexeme.toList) :
    IsHeading (headingOf name parameters) := by
  have hcomma : Text.OneLine ", " := by decide
  have hjoin : ∀ c ∈ join ", ".toList (parameters.map (·.lexeme.toList)),
      Text.isLineBreak c = false := by
    cases parameters with
    | nil => simp [join]
    | cons p ps =>
      obtain ⟨hfirst, hrest⟩ := List.forall_mem_cons.1 hparameters
      simp only [List.map_cons, join_cons, List.mem_flatMap, List.mem_map, List.mem_append]
      rintro c (hc | ⟨-, ⟨q, hq, rfl⟩, hc | hc⟩)
      · exact hfirst.oneLine c hc
      · exact hcomma c hc
      · exact (hrest q hq).oneLine c hc
  have hend : Text.OneLine ") \x7b" := by decide
  refine ⟨by simp [headingOf, isBare_space], ?_⟩
  simp only [headingOf, signature, List.forall_mem_cons, List.forall_mem_append]
  exact ⟨by decide, hname.oneLine, by decide, hjoin, hend⟩

end Syntax

-- Kinds whose text can stand at the head of a form on one line.
def TokenKind.Heads (kind : TokenKind) : Prop :=
  ¬ kind.Open ∧ IsWord kind.spelling.toList ∧ kind.spelling ∉ nestHeads

instance (kind : TokenKind) : Decidable kind.Heads :=
  inferInstanceAs (Decidable (_ ∧ _ ∧ _))

section

variable {t t' : Token} {kinds : List TokenKind}

theorem Token.Of.lexeme_eq (h : t.Of Token.Legible kinds) (hk : ∀ kind ∈ kinds, ¬ kind.Open) :
    t.lexeme = t.kind.spelling :=
  ((Token.spelled_iff (hk _ h.kind)).1 h.property.spelled).2

theorem Token.Of.isWord (h : t.Of Token.Legible [.identifier]) : IsWord t.lexeme.toList :=
  isWord_of_word (h.property.word h.kind_eq)

theorem Token.Of.heads (h : t.Of Token.Legible kinds) (hk : ∀ kind ∈ kinds, kind.Heads) :
    IsWord t.lexeme.toList ∧ t.lexeme ∉ nestHeads := by
  rw [h.lexeme_eq fun kind hkind => (hk kind hkind).1]
  exact (hk _ h.kind).2

end

theorem Literal.Legible.proper {value : Literal} (h : value.Legible) : value.sexp.Proper := by
  cases value with
  | nil => exact (by decide : IsWord "nil".toList)
  | bool value =>
    cases value with
    | true => exact (by decide : IsWord "true".toList)
    | false => exact (by decide : IsWord "false".toList)
  | number value => exact isWord_display h
  | string text => exact h
  | primitive value => exact h.elim
  | undefined value => exact h.elim

mutual

-- Trees of tokens that can be read have forms that can be told apart.
theorem Expr.MadeOf.proper {e : Expr} (h : e.MadeOf Token.Legible) : e.sexp.Proper := by
  cases e with
  | assign name value =>
    exact ⟨by decide, by decide, h.1.isWord, Expr.MadeOf.proper h.2, trivial⟩
  | binary left operator right =>
    obtain ⟨hword, hhead⟩ := h.1.heads (by decide)
    exact ⟨hword, hhead, Expr.MadeOf.proper h.2.1, Expr.MadeOf.proper h.2.2, trivial⟩
  | call callee paren arguments =>
    exact ⟨by decide, by decide, Expr.MadeOf.proper h.2.1, Expr.AllMadeOf.proper h.2.2⟩
  | grouping inner => exact ⟨by decide, by decide, Expr.MadeOf.proper (e := inner) h, trivial⟩
  | literal value => exact (Literal.MadeOf.legible h).proper
  | logical left operator right =>
    obtain ⟨hword, hhead⟩ := h.1.heads (by decide)
    exact ⟨hword, hhead, Expr.MadeOf.proper h.2.1, Expr.MadeOf.proper h.2.2, trivial⟩
  | unary operator operand =>
    obtain ⟨hword, hhead⟩ := h.1.heads (by decide)
    exact ⟨hword, hhead, Expr.MadeOf.proper h.2, trivial⟩
  | «variable» name => exact Token.Of.isWord h

theorem Expr.AllMadeOf.proper {es : List Expr} (h : Expr.AllMadeOf Token.Legible es) :
    Sexp.AllProper (Expr.sexps es) := by
  cases es with
  | nil => trivial
  | cons e es => exact ⟨Expr.MadeOf.proper h.1, Expr.AllMadeOf.proper h.2⟩

end

mutual

theorem Stmt.MadeOf.proper {s : Stmt} (h : s.MadeOf Token.Legible) : s.sexp.Proper := by
  cases s with
  | block body =>
    have hbody : Stmt.AllMadeOf Token.Legible body := h
    exact ⟨by decide, ⟨by simp, by simp⟩, Stmt.AllMadeOf.proper hbody, by decide⟩
  | breakLoop keyword => exact ⟨by decide, by decide, trivial⟩
  | expression value =>
    exact ⟨by decide, by decide, Expr.MadeOf.proper (e := value) h, trivial⟩
  | function name parameters body =>
    exact ⟨by decide, isHeading_headingOf h.1.isWord fun p hp => (h.2.1 p hp).isWord,
      Stmt.AllMadeOf.proper h.2.2, by decide⟩
  | branch condition yes no =>
    cases no with
    | none => exact ⟨by decide, by decide, h.1.proper, Stmt.MadeOf.proper h.2, trivial⟩
    | some no =>
      have helse : IsWord "else".toList := by decide
      exact ⟨by decide, by decide, h.1.proper, Stmt.MadeOf.proper h.2.1, helse,
        Stmt.MadeOf.proper h.2.2, trivial⟩
  | print value => exact ⟨by decide, by decide, Expr.MadeOf.proper (e := value) h, trivial⟩
  | returnFrom keyword value =>
    cases value with
    | none => exact ⟨by decide, by decide, trivial⟩
    | some value => exact ⟨by decide, by decide, h.2.proper, trivial⟩
  | declare name initializer =>
    cases initializer with
    | none => exact ⟨by decide, by decide, Token.Of.isWord h, trivial⟩
    | some initializer => exact ⟨by decide, by decide, h.1.isWord, h.2.proper, trivial⟩
  | loop condition body =>
    exact ⟨by decide, by decide, h.1.proper, Stmt.MadeOf.proper h.2, trivial⟩
  | jump kind => exact h.elim

theorem Stmt.AllMadeOf.proper {ss : List Stmt} (h : Stmt.AllMadeOf Token.Legible ss) :
    Sexp.AllProper (Stmt.sexps ss) := by
  cases ss with
  | nil => trivial
  | cons s ss => exact ⟨Stmt.MadeOf.proper h.1, Stmt.AllMadeOf.proper h.2⟩

end

theorem Literal.Legible.outline_eq {value : Literal} (h : value.Legible) :
    value.outline = value.sexp.render 0 := by
  cases value with
  | string text =>
    rw [Literal.sexp, Sexp.render, indented_zero]
    rfl
  | primitive value => exact h.elim
  | undefined value => exact h.elim
  | nil | bool value | number value => rfl

mutual

-- An outline is what its form is rendered to.
theorem Expr.MadeOf.outline_eq {e : Expr} (h : e.MadeOf Token.Legible) :
    e.outline = e.sexp.render 0 := by
  cases e with
  | assign name value =>
    rw [Expr.outline, Expr.MadeOf.outline_eq h.2]
    exact form_render "assign" [.word name.lexeme.toList, value.sexp]
  | binary left operator right =>
    rw [Expr.outline, Expr.MadeOf.outline_eq h.2.1, Expr.MadeOf.outline_eq h.2.2]
    exact form_render operator.lexeme [left.sexp, right.sexp]
  | call callee paren arguments =>
    rw [Expr.outline, Expr.MadeOf.outline_eq h.2.1, Expr.AllMadeOf.outlines_eq h.2.2]
    exact form_render "call" (callee.sexp :: Expr.sexps arguments)
  | grouping inner =>
    rw [Expr.outline, Expr.MadeOf.outline_eq (e := inner) h]
    exact form_render "group" [inner.sexp]
  | literal value =>
    rw [Expr.outline, (Literal.MadeOf.legible h).outline_eq]
    rfl
  | logical left operator right =>
    rw [Expr.outline, Expr.MadeOf.outline_eq h.2.1, Expr.MadeOf.outline_eq h.2.2]
    exact form_render operator.lexeme [left.sexp, right.sexp]
  | unary operator operand =>
    rw [Expr.outline, Expr.MadeOf.outline_eq h.2]
    exact form_render operator.lexeme [operand.sexp]
  | «variable» name => rfl

theorem Expr.AllMadeOf.outlines_eq {es : List Expr} (h : Expr.AllMadeOf Token.Legible es) :
    Expr.outlines es = (Expr.sexps es).map (·.render 0) := by
  cases es with
  | nil => rfl
  | cons e es =>
    rw [Expr.outlines, Expr.MadeOf.outline_eq h.1, Expr.AllMadeOf.outlines_eq h.2]
    rfl

end

theorem Stmt.outlines_eq_map (ss : List Stmt) : Stmt.outlines ss = ss.map Stmt.outline := by
  induction ss with
  | nil => rfl
  | cons s ss ih => rw [Stmt.outlines, ih, List.map_cons]

mutual

theorem Stmt.MadeOf.outline_eq {s : Stmt} (h : s.MadeOf Token.Legible) :
    s.outline = s.sexp.render 0 := by
  cases s with
  | block body =>
    have hbody : Stmt.AllMadeOf Token.Legible body := h
    have hopening : "(block".toList = '(' :: ("block".toList ++ []) := by simp
    unfold Stmt.outline
    rw [Stmt.AllMadeOf.outlines_eq hbody, hopening, nest_render hbody.proper, Stmt.sexp]
  | breakLoop keyword => rfl
  | expression value =>
    unfold Stmt.outline
    rw [Expr.MadeOf.outline_eq (e := value) h]
    exact form_render "expr_stmt" [value.sexp]
  | function name parameters body =>
    unfold Stmt.outline
    rw [Stmt.AllMadeOf.outlines_eq h.2.2, Stmt.sexp, ← nest_render h.2.2.proper]
    simp [headingOf, signature]
  | branch condition yes no =>
    cases no with
    | none =>
      unfold Stmt.outline
      rw [h.1.outline_eq, Stmt.MadeOf.outline_eq h.2]
      exact form_render "if" [condition.sexp, yes.sexp]
    | some no =>
      unfold Stmt.outline
      rw [h.1.outline_eq, Stmt.MadeOf.outline_eq h.2.1, Stmt.MadeOf.outline_eq h.2.2]
      exact form_render "if" [condition.sexp, yes.sexp, .word "else".toList, no.sexp]
  | print value =>
    unfold Stmt.outline
    rw [Expr.MadeOf.outline_eq (e := value) h]
    exact form_render "print" [value.sexp]
  | returnFrom keyword value =>
    cases value with
    | none => rfl
    | some value =>
      unfold Stmt.outline
      rw [h.2.outline_eq]
      exact form_render "return" [value.sexp]
  | declare name initializer =>
    cases initializer with
    | none => exact form_render "var" [.word name.lexeme.toList]
    | some initializer =>
      unfold Stmt.outline
      rw [h.2.outline_eq]
      exact form_render "var" [.word name.lexeme.toList, initializer.sexp]
  | loop condition body =>
    unfold Stmt.outline
    rw [h.1.outline_eq, Stmt.MadeOf.outline_eq h.2]
    exact form_render "while" [condition.sexp, body.sexp]
  | jump kind => exact h.elim

theorem Stmt.AllMadeOf.outlines_eq {ss : List Stmt} (h : Stmt.AllMadeOf Token.Legible ss) :
    Stmt.outlines ss = (Stmt.sexps ss).map (·.render 0) := by
  cases ss with
  | nil => rfl
  | cons s ss =>
    rw [Stmt.outlines, Stmt.MadeOf.outline_eq h.1, Stmt.AllMadeOf.outlines_eq h.2]
    rfl

end

theorem Syntax.outline_eq {program : List Stmt} (h : Stmt.AllMadeOf Token.Legible program) :
    outline program = String.ofList (join ['\n'] ((Stmt.sexps program).map (·.render 0))) := by
  rw [outline, outlineOf, List.map_map, ← h.outlines_eq, Stmt.outlines_eq_map]
  rfl

end Lox
