import Lox.Proofs.Session.History
import Lox.Proofs.Session.Joined
import Mathlib.Data.List.Forall2

namespace Lox

-- Tokens that differ at most in their lines.
def Token.Alike (t t' : Token) : Prop :=
  t.kind = t'.kind ∧ t.lexeme = t'.lexeme ∧ t.literal = t'.literal

instance (t t' : Token) : Decidable (t.Alike t') :=
  inferInstanceAs (Decidable (_ ∧ _))

-- Diagnostics that differ at most in their lines, so that their reports do in nothing but the number
-- of the line.
structure Diagnostic.Alike (d d' : Diagnostic) : Prop where
  stage : d.stage = d'.stage
  message : d.message = d'.message
  location : d.location = d'.location
  report : ∃ rest, d.report = "[Line " ++ toString d.line ++ rest ∧
    d'.report = "[Line " ++ toString d'.line ++ rest

theorem Token.alike_iff {t t' : Token} :
    t.Alike t' ↔ (t.relined fun _ => 0) = t'.relined fun _ => 0 := by
  cases t
  cases t'
  simp [Alike, relined]

-- What is the same without lines differs in nothing else, item by item.
theorem forall₂_of_map_eq {α β : Type} {f : α → β} {xs ys : List α} (h : xs.map f = ys.map f) :
    List.Forall₂ (fun x y => f x = f y) xs ys := by
  rw [← List.forall₂_eq_eq_eq, List.forall₂_map_left_iff, List.forall₂_map_right_iff] at h
  exact h

theorem map_relined_of_alike {tokens tokens' : List Token}
    (h : List.Forall₂ Token.Alike tokens tokens') :
    tokens.map (·.relined fun _ => 0) = tokens'.map (·.relined fun _ => 0) := by
  rw [← List.forall₂_eq_eq_eq, List.forall₂_map_left_iff, List.forall₂_map_right_iff]
  exact h.imp fun _ _ => Token.alike_iff.1

-- What a report says after the number of the line.
def Diagnostic.complaint (d : Diagnostic) : String :=
  "] " ++ (if d.stage = .running then "RuntimeError" else "Error") ++ d.location ++ ": " ++
    d.message ++ "\n"

theorem Diagnostic.report_eq (d : Diagnostic) :
    d.report = "[Line " ++ toString d.line ++ d.complaint := by
  simp only [report, complaint, String.append_assoc]

theorem Diagnostic.Alike.of_token {stage : Stage} {message : String} {t t' : Token}
    (h : t.Alike t') :
    Diagnostic.Alike ⟨stage, t.line, some t, message⟩ ⟨stage, t'.line, some t', message⟩ := by
  obtain ⟨hkind, hlexeme, -⟩ := h
  have hlocation : Diagnostic.location ⟨stage, t.line, some t, message⟩ =
      Diagnostic.location ⟨stage, t'.line, some t', message⟩ := by
    simp only [Diagnostic.location, hkind, hlexeme]
  refine ⟨rfl, rfl, hlocation, _, report_eq _, ?_⟩
  rw [report_eq, complaint, complaint, hlocation]

-- The trees and the errors that differ at most in lines.
structure Syntax.Program.Alike (p p' : Program) : Prop where
  statements : Stmt.allRelined (fun _ => 0) p.statements =
    Stmt.allRelined (fun _ => 0) p'.statements
  errors : p.errors.map (·.relined fun _ => 0) = p'.errors.map (·.relined fun _ => 0)

theorem Syntax.parse_alike {tokens tokens' : List Token}
    (h : List.Forall₂ Token.Alike tokens tokens') : (parse tokens).Alike (parse tokens') := by
  cases tokens with
  | nil =>
    obtain rfl : tokens' = [] := List.forall₂_nil_left_iff.1 h
    exact ⟨rfl, rfl⟩
  | cons t ts =>
    have hne : tokens' ≠ [] := by
      rintro rfl
      cases h
    have hparse := parse_of_splitAtEnd (splitAtEnd_unlined (List.cons_ne_nil t ts))
    rw [map_relined_of_alike h, parse_of_splitAtEnd (splitAtEnd_unlined hne)] at hparse
    obtain ⟨hstatements, herrors⟩ := Program.mk.inj hparse
    exact ⟨hstatements.symm, herrors.symm⟩

theorem Syntax.SyntaxError.alike_of_relined {e e' : SyntaxError}
    (h : (e.relined fun _ => 0) = e'.relined fun _ => 0) : e.diagnostic.Alike e'.diagnostic := by
  obtain ⟨htoken, hfault⟩ := SyntaxError.mk.inj h
  rw [diagnostic, diagnostic, hfault]
  exact .of_token (Token.alike_iff.2 htoken)

-- Programs that differ at most in lines do the same in states that do.
theorem Run.run_of_relined_eq {s s' : State} {program program' : List Stmt}
    (hs : (s.relined fun _ => 0) = s'.relined fun _ => 0)
    (hprogram : Stmt.allRelined (fun _ => 0) program = Stmt.allRelined (fun _ => 0) program')
    (fuel : Nat) :
    ((run fuel program s).1.relined fun _ => 0) = ((run fuel program' s').1.relined fun _ => 0) ∧
      ((run fuel program s).2.relined fun _ => 0) = (run fuel program' s').2.relined fun _ => 0 := by
  have hrun := run_relined (fun _ => 0) fuel program s
  rw [hprogram, hs, run_relined] at hrun
  exact (Prod.mk.inj hrun).imp Eq.symm Eq.symm

theorem Run.RuntimeError.alike_of_relined {e e' : RuntimeError}
    (h : (e.relined fun _ => 0) = e'.relined fun _ => 0) : e.diagnostic.Alike e'.diagnostic := by
  obtain ⟨htoken, hfault⟩ := RuntimeError.mk.inj h
  rw [diagnostic, diagnostic, hfault]
  exact .of_token (Token.alike_iff.2 htoken)

-- Texts whose tokens differ at most in their lines, and which are both without errors in their
-- tokens or both not, and trees that differ at most in lines.
inductive Given.Alike : Given → Given → Prop
  | text {source source' : String}
      (tokens : List.Forall₂ Token.Alike (Source.scan source).tokens (Source.scan source').tokens)
      (errors : (Source.scan source).errors = [] ↔ (Source.scan source').errors = []) :
      Given.Alike (.text source) (.text source')
  | trees {program program' : List Stmt}
      (h : Stmt.allRelined (fun _ => 0) program = Stmt.allRelined (fun _ => 0) program') :
      Given.Alike (.trees program) (.trees program')

namespace Session

-- Sessions in which nothing but the lines of tokens differs.
structure Alike (session session' : Session) : Prop where
  state : (session.state.relined fun _ => 0) = session'.state.relined fun _ => 0
  hadError : session.hadError = session'.hadError
  hadRuntimeError : session.hadRuntimeError = session'.hadRuntimeError

-- Steps between which nobody can tell a difference but by the lines in reports. Errors in tokens may
-- also differ in what they complain about.
structure SameStep (r r' : Step × Session) : Prop where
  printed : r.1.printed = r'.1.printed
  ending : r.1.ending.map (·.relined fun _ => 0) = r'.1.ending.map (·.relined fun _ => 0)
  reports : r.1.ending.isSome → List.Forall₂ Diagnostic.Alike r.1.diagnostics r'.1.diagnostics
  hadError : r.2.hadError = r'.2.hadError
  hadRuntimeError : r.2.hadRuntimeError = r'.2.hadRuntimeError
  globals : r.2.state.globals.map (fun (name, value) => (name, value.display)) =
    r'.2.state.globals.map fun (name, value) => (name, value.display)

-- What can be seen of the global names does not depend on lines.
theorem displayed_globals (s : Run.State) :
    (s.relined fun _ => 0).globals.map (fun (name, value) => (name, value.display)) =
      s.globals.map fun (name, value) => (name, value.display) := by
  have hunlined : (s.relined fun _ => 0).globals = s.unlined.globals := rfl
  rw [hunlined, globals_unlined, List.map_map]
  refine List.map_congr_left fun binding _ => ?_
  simp

theorem alike_diagnosticsOf {ending ending' : Run.Ending}
    (h : (ending.relined fun _ => 0) = ending'.relined fun _ => 0) :
    List.Forall₂ Diagnostic.Alike (diagnosticsOf ending) (diagnosticsOf ending') := by
  cases ending <;> cases ending' <;> try exact .nil
  all_goals
    simp only [Run.Ending.relined, reduceCtorEq, Run.Ending.failed.injEq] at h
  exact .cons (Run.RuntimeError.alike_of_relined h) .nil

-- How steps that ran look from outside.
theorem sameStep_of_ended {ending ending' : Run.Ending} {s s' : Run.State} {rejected failed : Bool}
    (hending : (ending.relined fun _ => 0) = ending'.relined fun _ => 0)
    (hs : (s.relined fun _ => 0) = s'.relined fun _ => 0) :
    SameStep (⟨s.printed, diagnosticsOf ending, some ending⟩, ⟨s, rejected, failed⟩)
        (⟨s'.printed, diagnosticsOf ending', some ending'⟩, ⟨s', rejected, failed⟩) ∧
      Alike ⟨s, rejected, failed⟩ ⟨s', rejected, failed⟩ := by
  have hprinted : (s.relined fun _ => 0).printed = (s'.relined fun _ => 0).printed :=
    congrArg Run.State.printed hs
  have hglobals := displayed_globals s
  rw [hs, displayed_globals] at hglobals
  exact ⟨⟨hprinted, congrArg some hending, fun _ => alike_diagnosticsOf hending, rfl, rfl,
    hglobals.symm⟩, ⟨hs, rfl, rfl⟩⟩

theorem Given.Alike.accepted {source source' : String}
    (h : (Given.text source).Alike (.text source')) : Accepted source ↔ Accepted source' := by
  obtain ⟨htokens, herrors⟩ := h
  have hparse := (Syntax.parse_alike htokens).errors
  constructor
  · intro h
    rw [h.parse, List.map_nil] at hparse
    exact ⟨herrors.1 h.scan, List.map_eq_nil_iff.1 hparse.symm⟩
  · intro h
    rw [h.parse, List.map_nil] at hparse
    exact ⟨herrors.2 h.scan, List.map_eq_nil_iff.1 hparse⟩

-- One step keeps sessions alike, and nobody can tell which of them it is from.
theorem Alike.take {session session' : Session} (h : session.Alike session') (fuel : Nat)
    {given given' : Given} (hgiven : given.Alike given') :
    SameStep (session.take fuel given) (session'.take fuel given') ∧
      (session.take fuel given).2.Alike (session'.take fuel given').2 := by
  obtain ⟨s, rejected, failed⟩ := session
  obtain ⟨s', rejected', failed'⟩ := session'
  obtain ⟨hs, rfl, rfl⟩ := h
  cases hgiven with
  | trees hprogram =>
    obtain ⟨hending, hstate⟩ := Run.run_of_relined_eq hs hprogram fuel
    exact sameStep_of_ended hending hstate
  | @text source source' htokens herrors =>
    have haccepted := Given.Alike.accepted (.text htokens herrors)
    by_cases hsource : Accepted source
    · have hprogram := (Syntax.parse_alike htokens).statements
      obtain ⟨hending, hstate⟩ := Run.run_of_relined_eq hs hprogram fuel
      have hflag : flagAfter failed (Run.run fuel (statementsOf source) s).1 =
          flagAfter failed (Run.run fuel (statementsOf source') s').1 :=
        (flagAfter_relined failed (fun _ => 0) _).symm.trans
          ((congrArg (flagAfter failed) hending).trans (flagAfter_relined failed (fun _ => 0) _))
      rw [Session.take, Session.take, run_of_accepted hsource,
        run_of_accepted (haccepted.1 hsource)]
      dsimp only
      rw [hflag]
      exact sameStep_of_ended hending hstate
    · have hglobals := displayed_globals s
      rw [hs, displayed_globals] at hglobals
      rw [Session.take, Session.take, run_of_rejected hsource,
        run_of_rejected (haccepted.not.1 hsource)]
      exact ⟨⟨rfl, rfl, fun hended => (by cases hended), rfl, rfl, hglobals.symm⟩, ⟨hs, rfl, rfl⟩⟩

theorem Alike.history {session session' : Session} (h : session.Alike session')
    {steps steps' : List (Nat × Given)}
    (hsteps : List.Forall₂ (fun step step' => step.1 = step'.1 ∧ step.2.Alike step'.2) steps steps') :
    List.Forall₂ SameStep (session.history steps) (session'.history steps') := by
  induction hsteps generalizing session session' with
  | nil => exact .nil
  | @cons step step' others others' hstep _ ih =>
    obtain ⟨fuel, given⟩ := step
    obtain ⟨fuel', given'⟩ := step'
    obtain ⟨rfl, hgiven⟩ := hstep
    obtain ⟨hsame, hnext⟩ := h.take fuel hgiven
    exact .cons hsame (ih hnext)

-- Lines do not matter. Tokens that differ at most in them are read as the same trees and with the
-- same errors. Sessions that are given such texts step by step print the same, fail in the same steps
-- and keep the same names with the same values, and their reports differ in numbers of lines only.
theorem history_of_alike :
    (∀ tokens tokens', List.Forall₂ Token.Alike tokens tokens' →
      (Syntax.parse tokens).Alike (Syntax.parse tokens') ∧
        List.Forall₂ (fun e e' => e.diagnostic.Alike e'.diagnostic) (Syntax.parse tokens).errors
          (Syntax.parse tokens').errors) ∧
    ∀ clock steps steps',
      List.Forall₂ (fun (step step' : Nat × Given) => step.1 = step'.1 ∧ step.2.Alike step'.2)
        steps steps' →
      List.Forall₂ SameStep ((new clock).history steps) ((new clock).history steps') := by
  refine ⟨fun tokens tokens' h => ?_, fun clock steps steps' hsteps => ?_⟩
  · have halike := Syntax.parse_alike h
    exact ⟨halike, (forall₂_of_map_eq halike.errors).imp fun _ _ =>
      Syntax.SyntaxError.alike_of_relined⟩
  · exact Alike.history ⟨rfl, rfl, rfl⟩ hsteps

-- A text that is not accepted, and one that fails in a function of the text before, without and with
-- comments and line feeds.
theorem history_of_alike_comment :
    (Syntax.parse (Source.scan "x = ;").tokens).Alike
        (Syntax.parse (Source.scan "x\n= // nothing\n;").tokens) ∧
      List.Forall₂ SameStep
        ((new fun _ => 0).history [(2, .text "fun f() \x7b return x; \x7d"), (2, .text "print f();")])
        ((new fun _ => 0).history
          [(2, .text "fun f()\n\x7b /* no x */ return\nx; \x7d"), (2, .text "print\nf();")]) := by
  obtain ⟨hparse, hhistory⟩ := history_of_alike
  refine ⟨(hparse _ _ (by decide +kernel)).1, hhistory _ _ _ (.cons ⟨rfl, ?_⟩ (.cons ⟨rfl, ?_⟩ .nil))⟩
  · exact .text (by decide +kernel) (by decide +kernel)
  · exact .text (by decide +kernel) (by decide +kernel)

-- The error is on another line.
example : ((new fun _ => 0).history [(2, .text "print x;"), (2, .text "print\nx;")]).flatMap
    (fun r => r.1.diagnostics.map Diagnostic.line) = [1, 2] := by
  decide +kernel

end Session

end Lox
