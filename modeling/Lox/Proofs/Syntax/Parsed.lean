import Lox.Proofs.Syntax.CompleteStatement
import Lox.Proofs.Syntax.SoundStatement

namespace Lox.Syntax

-- The tokens of a program without the one that marks its end and what follows that.
def unmarked (tokens : List Token) : List Token :=
  tokens.takeWhile (·.kind ≠ .eof)

theorem unmarked_append {before : List Token} {stop : Token} (rest : List Token)
    (hbefore : ∀ t ∈ before, t.kind ≠ .eof) (hstop : stop.kind = .eof) :
    unmarked (before ++ stop :: rest) = before := by
  have hall : ∀ t ∈ before, decide (t.kind ≠ .eof) = true := by simpa using hbefore
  rw [unmarked, List.takeWhile_append_of_pos hall]
  simp [hstop]

-- A program is read from those tokens, with as many rounds and levels as there are tokens.
theorem parse_eq (tokens : List Token) : ∃ stop, parse tokens =
    let reading := declarations (declaration (unmarked tokens).length) false
      (unmarked tokens).length stop (unmarked tokens)
    ⟨reading.value.getD [], reading.errors⟩ :=
  ⟨_, rfl⟩

-- Without errors a program is read as declarations, and nothing is left out.
theorem parse_sound {tokens : List Token} (h : (parse tokens).errors = []) :
    ∃ body, ReadsProgram body (unmarked tokens) ∧
      (parse tokens).statements = body.map Span.tree := by
  obtain ⟨stop, hparse⟩ := parse_eq tokens
  rw [hparse] at h ⊢
  generalize unmarked tokens = before at h ⊢
  obtain ⟨hstatement, hblock⟩ := stable_loud.statement_and_block before.length
  have hloud := stable_loud.declarations
    (stable_loud.declarationWith hstatement hblock before.length) false before.length stop before
  rw [← declaration] at hloud
  cases hrun : declarations (declaration before.length) false before.length stop before with
  | mk value rest errors =>
    rw [hrun] at h hloud
    obtain rfl := h
    cases value with
    | none => exact absurd rfl (hloud rfl)
    | some ss =>
      obtain ⟨body, hbody, rfl, he, hall⟩ := sound_program (Nat.le_refl _) hrun
      exact ⟨body, ⟨hbody, he, hall⟩, rfl⟩

theorem reads_of_clean {tokens : List Token} {stop : Token} (htokens : ∀ t ∈ tokens, t.kind ≠ .eof)
    (hstop : stop.kind = .eof) (h : (parse (tokens ++ [stop])).errors = []) :
    ∃ body, ReadsProgram body tokens ∧
      (parse (tokens ++ [stop])).statements = body.map Span.tree := by
  have hsound := parse_sound h
  rwa [unmarked_append [] htokens hstop] at hsound

-- Declarations are read as what they stand for.
theorem parse_complete {tokens : List Token} {body : List (Span Stmt)}
    (h : ReadsProgram body (unmarked tokens)) : parse tokens = ⟨body.map Span.tree, []⟩ := by
  obtain ⟨stop, hparse⟩ := parse_eq tokens
  have hrun := complete_program (unmarked tokens).length stop h.declarations
    (by rw [← h.tokens])
  rw [← h.tokens, h.clean] at hrun
  rw [hparse, hrun]
  rfl

theorem parse_clean_iff {tokens : List Token} :
    (parse tokens).errors = [] ↔ ∃ body, ReadsProgram body (unmarked tokens) := by
  constructor
  · intro h
    obtain ⟨body, hbody, -⟩ := parse_sound h
    exact ⟨body, hbody⟩
  · rintro ⟨body, hbody⟩
    rw [parse_complete hbody]

end Lox.Syntax
