import Lox.Proofs.Grammar.Derived
import Lox.Proofs.Grammar.Recognized
import Lox.Proofs.Syntax.Parsed

namespace Lox.Syntax

open Grammar

-- Expressions are read in one way only.
theorem Reads.unique {s s' : Span Expr} (h : Reads .assignment s) (h' : Reads .assignment s')
    (htokens : s.tokens = s'.tokens) : s.tree = s'.tree ∧ s.errors = s'.errors := by
  let stop : Token := ⟨.eof, "", .nil, 1⟩
  have hrun := complete_expression s.tokens.length stop s [] (by simp) h (by simp)
  have hrun' := complete_expression s.tokens.length stop s' [] (by simp [htokens]) h' (by simp)
  rw [← htokens, hrun] at hrun'
  obtain ⟨htree, -, herrors⟩ := Reading.mk.inj hrun'
  exact ⟨Option.some.inj htree, herrors⟩

-- A token of a given kind, for words of which only the kinds are given.
def sample (kind : TokenKind) : Token := ⟨kind, "", .nil, 1⟩

theorem recognized_sample {name : Phrase} {w : List TokenKind}
    (h : Derives production (.phrase name) w) : Recognized name (w.map sample) := by
  apply recognized_of_derives
  simpa [Function.comp_def, sample] using h

-- Neither keyword of a declaration starts a branch or the body of a loop.
theorem not_declaration_of_statement {kind : TokenKind} {w : List TokenKind}
    (h : Derives production (.phrase .statement) (kind :: w)) : kind ≠ .varKw ∧ kind ≠ .funKw := by
  obtain ⟨s, hs, htokens, -⟩ := recognized_sample h
  obtain ⟨t, ts, hfirst, hk⟩ := hs.head
  rw [hfirst] at htokens
  obtain ⟨rfl, -⟩ := List.cons.inj htokens
  constructor <;> rintro rfl <;> simp [Slot.barred, sample] at hk

-- What stands before the `=` of an assignment is read as an expression first, whatever it is; if
-- it is no name alone, the whole is read with an error and in no other way.
theorem name_of_assignment {u v : List TokenKind} (hu : Derives production (.phrase .logicOr) u)
    (hv : Derives production (.phrase .assignment) v)
    (h : Derives production (.phrase .assignment) (u ++ .equal :: v)) : u = [.identifier] := by
  obtain ⟨target, htarget, htokens, -⟩ := recognized_sample hu
  obtain ⟨value, hvalue, hvtokens, -⟩ := recognized_sample hv
  obtain ⟨all, hall, hatokens, hae⟩ := recognized_sample h
  have hequal : (sample .equal).kind = .equal := rfl
  have hkinds : target.tokens.map Token.kind = u := by
    rw [htokens]
    simp [Function.comp_def, sample]
  by_cases hname : ∃ name, target.tree = .variable name
  · obtain ⟨name, hname⟩ := hname
    obtain ⟨hk, rfl⟩ := htarget.eq_of_variable (by simp) hname
    simpa [hk] using hkinds.symm
  · rw [not_exists] at hname
    obtain ⟨-, herrors⟩ := (Reads.misassign htarget hname hequal hvalue).unique hall
      (by simp [hatokens, htokens, hvtokens])
    simp [hae] at herrors

-- A program is accepted if and only if the grammar derives it. In particular no branch and no
-- loop has a declaration for its body, and only a name can stand before an `=`.
theorem parse_accepts_iff {before : List Token} {stop : Token}
    (hbefore : ∀ t ∈ before, t.kind ≠ .eof) (hstop : stop.kind = .eof) :
    ((parse (before ++ [stop])).errors = [] ↔
      Derives production (.phrase .program) (before.map Token.kind)) ∧
    (∀ kind w, Derives production (.phrase .statement) (kind :: w) →
      kind ≠ .varKw ∧ kind ≠ .funKw) ∧
    ∀ u v, Derives production (.phrase .logicOr) u → Derives production (.phrase .assignment) v →
      Derives production (.phrase .assignment) (u ++ .equal :: v) → u = [.identifier] := by
  refine ⟨?_, fun _ _ => not_declaration_of_statement, fun _ _ => name_of_assignment⟩
  rw [parse_clean_iff, unmarked_append [] hbefore hstop]
  constructor
  · rintro ⟨body, rfl, he, hall⟩
    exact derives_phrase (derived_declarations (fun s hs => (hall s hs).derived) he)
  · exact fun h => recognized_of_derives h

-- An `else` after two ifs does not keep a program from being accepted: `if (a) if (b) c; else d;`.
theorem parse_accepts_two_ifs :
    Derives production (.phrase .program) [.ifKw, .leftParen, .identifier, .rightParen, .ifKw,
      .leftParen, .identifier, .rightParen, .identifier, .semicolon, .elseKw, .identifier,
      .semicolon] := by
  have h := (@parse_accepts_iff (([.ifKw, .leftParen, .identifier, .rightParen, .ifKw, .leftParen,
    .identifier, .rightParen, .identifier, .semicolon, .elseKw, .identifier,
    .semicolon] : List TokenKind).map sample) (sample .eof) (by decide) rfl).1
  exact h.1 (by decide)

end Lox.Syntax
