import Lox.CommandLine
import Lox.Proofs.Run.Message
import Lox.Proofs.Session.NeverFaulted

namespace Lox

open Text

theorem reports_singleton (d : Diagnostic) : reports [d] = d.report := by
  simp [reports, String.join]

theorem reports_append (ds ds' : List Diagnostic) :
    reports (ds ++ ds') = reports ds ++ reports ds' := by
  rw [← String.toList_inj]
  simp [reports, String.toList_join]

theorem Diagnostic.report_ne_empty (d : Diagnostic) : d.report ≠ "" := by
  intro h
  have hlength := congrArg String.length h
  simp [report] at hlength

theorem reports_eq_empty_iff {ds : List Diagnostic} : reports ds = "" ↔ ds = [] := by
  constructor
  · intro h
    cases ds with
    | nil => rfl
    | cons d ds =>
      rw [← List.singleton_append, reports_append, reports_singleton] at h
      exact absurd (String.append_eq_empty_iff.1 h).1 d.report_ne_empty
  · rintro rfl
    rfl

-- An accepted text that fails is told so on one line.
theorem Accepted.report_oneLine {source : String} (h : Accepted source) {fuel : Nat}
    {clock : Nat → Float} {e : Run.RuntimeError}
    (hfailed : (Run.run fuel (statementsOf source) (.initial clock)).1 = .failed e) :
    ∃ line, e.diagnostic.report = line ++ "\n" ∧ OneLine line := by
  have hprogram : Stmt.AllObey (.textual fun t => OneLine t.lexeme) (statementsOf source) :=
    h.obeys fun t ht hk => Source.oneLine_of_mem_scan ht hk
  obtain ⟨hended, -⟩ := Run.run_allowed fuel hprogram (Run.all_initial trivial clock)
  rw [hfailed] at hended
  have htoken : OneLine e.token.lexeme := hended
  refine Diagnostic.report_oneLine (Run.plain_of_failed hfailed htoken) fun t ht => ?_
  obtain rfl := Option.some.inj ht
  exact htoken

namespace CommandLine

-- The program text in a script.
def sourceOf (text : String) : String :=
  String.ofList (normalizeNewlines text.toList)

-- What a script does whose text is given: its exit status says at which stage it went wrong if it
-- did, and so does what it leaves behind.
structure Outcome.Answers (outcome : Outcome) (fuel : Nat) (clock : Nat → Float)
    (source : String) : Prop where
  status : outcome.exit = 0 ∨ outcome.exit = 65 ∨ outcome.exit = 70
  rejected : outcome.exit = 65 ↔
    (Source.scan source).errors ≠ [] ∨ (Syntax.parse (Source.scan source).tokens).errors ≠ []
  unrun : outcome.exit = 65 → outcome.stdout = "" ∧
    ((Session.new clock).run fuel source).1.ending = none ∧
    ((Session.new clock).run fuel source).2.state = (Session.new clock).state
  told : outcome.exit = 65 → outcome.stderr =
    reports ((Source.scan source).errors.map Source.ScanError.diagnostic) ++
      reports ((Syntax.parse (Source.scan source).tokens).errors.map Syntax.SyntaxError.diagnostic)
  failed : outcome.exit = 70 ↔ Accepted source ∧
    ∃ e, (Run.run fuel (statementsOf source) (.initial clock)).1 = .failed e
  line : outcome.exit = 70 → ∃ line, outcome.stderr = line ++ "\n" ∧ OneLine line
  silent : outcome.exit = 0 ↔ outcome.stderr = ""

section

variable {fuel : Nat} {clock : Nat → Float} {source : String}

theorem not_accepted_iff : ¬ Accepted source ↔
    (Source.scan source).errors ≠ [] ∨
      (Syntax.parse (Source.scan source).tokens).errors ≠ [] := by
  constructor
  · intro h
    by_contra hnone
    rw [not_or, not_not, not_not] at hnone
    exact h ⟨hnone.1, hnone.2⟩
  · rintro (hscan | hparse) h
    · exact hscan h.scan
    · exact hparse h.parse

-- What running an accepted text does, by how its statements end.
theorem run_of_ended (h : Accepted source) {ending : Run.Ending}
    (hending : (Run.run fuel (statementsOf source) (.initial clock)).1 = ending) :
    (Session.new clock).run fuel source =
      let state := (Run.run fuel (statementsOf source) (.initial clock)).2
      (⟨state.printed, Session.diagnosticsOf ending, some ending⟩,
        ⟨state, false, Session.flagAfter false ending⟩) := by
  subst hending
  exact Session.run_of_accepted h fuel _

theorem answers_rejected (h : ¬ Accepted source) :
    Outcome.Answers ⟨65, "", reports (rejectionsOf source)⟩ fuel clock source where
  status := .inr (.inl rfl)
  rejected := ⟨fun _ => not_accepted_iff.1 h, fun _ => rfl⟩
  unrun _ := by
    rw [Session.run_of_rejected h]
    exact ⟨rfl, rfl, rfl⟩
  told _ := reports_append _ _
  failed := ⟨fun h70 => (by cases h70), fun hfailed => absurd hfailed.1 h⟩
  line h70 := by cases h70
  silent := by
    constructor
    · intro h0
      cases h0
    · intro hempty
      exact absurd (rejectionsOf_eq_nil_iff.1 (reports_eq_empty_iff.1 hempty)) h

theorem answers_completed (h : Accepted source)
    (hrun : (Run.run fuel (statementsOf source) (.initial clock)).1 = .completed)
    (stdout : String) : Outcome.Answers ⟨0, stdout, ""⟩ fuel clock source where
  status := .inl rfl
  rejected := ⟨fun h65 => (by cases h65), fun herrors => absurd h (not_accepted_iff.2 herrors)⟩
  unrun h65 := by cases h65
  told h65 := by cases h65
  failed := by
    constructor
    · intro h70
      cases h70
    · rintro ⟨-, e, he⟩
      rw [hrun] at he
      cases he
  line h70 := by cases h70
  silent := ⟨fun _ => rfl, fun _ => rfl⟩

theorem answers_failed (h : Accepted source) {e : Run.RuntimeError}
    (hrun : (Run.run fuel (statementsOf source) (.initial clock)).1 = .failed e)
    (stdout : String) : Outcome.Answers ⟨70, stdout, e.diagnostic.report⟩ fuel clock source where
  status := .inr (.inr rfl)
  rejected := ⟨fun h65 => (by cases h65), fun herrors => absurd h (not_accepted_iff.2 herrors)⟩
  unrun h65 := by cases h65
  told h65 := by cases h65
  failed := ⟨fun _ => ⟨h, e, hrun⟩, fun _ => rfl⟩
  line _ := h.report_oneLine hrun
  silent := by
    constructor
    · intro h0
      cases h0
    · intro hempty
      exact absurd hempty e.diagnostic.report_ne_empty

end

-- A script that finishes has the outcome of the session that it is.
theorem run_script {fuel : Nat} {clock : Nat → Float} {read : String → Except Unreadable ByteArray}
    {path input : String} {script : ByteArray} {text : String} (hread : read path = .ok script)
    (htext : String.fromUTF8? script = some text)
    (hfinished : ((Session.new clock).run fuel (sourceOf text)).1.finished = true) :
    run fuel clock read [path] input =
      let ended := (Session.new clock).run fuel (sourceOf text)
      some ⟨ended.2.exitCode, ended.1.printed, reports ended.1.diagnostics⟩ := by
  simp only [run, hread, runScript, htext, Option.bind_eq_bind, Option.bind_some]
  exact if_pos hfinished

-- If the run of a script ends, there is an outcome, and its exit status, its output and its reports
-- say the same.
theorem exit_status_agrees {fuel : Nat} {clock : Nat → Float}
    {read : String → Except Unreadable ByteArray} {path input : String} {script : ByteArray}
    {text : String} (hread : read path = .ok script) (htext : String.fromUTF8? script = some text)
    (hends : ((Session.new clock).run fuel (sourceOf text)).1.ending ≠ some .exhausted) :
    ∃ outcome, run fuel clock read [path] input = some outcome ∧
      outcome.Answers fuel clock (sourceOf text) := by
  have hrun : run fuel clock read [path] input = _ := run_script hread htext
    (((Session.textual_new clock).finished_iff fuel (sourceOf text)).2 hends)
  by_cases h : Accepted (sourceOf text)
  · have hfault := ((Session.textual_new clock).run fuel (sourceOf text)).1
    cases hending : (Run.run fuel (statementsOf (sourceOf text)) (.initial clock)).1 with
    | completed =>
      rw [run_of_ended h hending] at hrun
      exact ⟨_, hrun, answers_completed h hending _⟩
    | failed e =>
      rw [run_of_ended h hending] at hrun
      have hreports : reports (Session.diagnosticsOf (.failed e)) = e.diagnostic.report :=
        reports_singleton _
      dsimp only at hrun
      rw [hreports] at hrun
      exact ⟨_, hrun, answers_failed h hending _⟩
    | faulted f =>
      rw [run_of_ended h hending] at hfault
      exact absurd rfl (hfault f)
    | exhausted =>
      rw [run_of_ended h hending] at hends
      exact absurd rfl hends
  · rw [Session.run_of_rejected h] at hrun
    exact ⟨_, hrun, answers_rejected h⟩

-- A script that fails after it has printed.
theorem exit_status_agrees_failing :
    let source := "print \"a\";\nprint x;"
    let outcome : Outcome := ⟨70, "a\n", "[Line 2] RuntimeError at 'x': Undefined variable 'x'.\n"⟩
    run 1 (fun _ => 0) (fun _ => .ok source.toUTF8) ["script"] "" = some outcome ∧
      outcome.Answers 1 (fun _ => 0) (sourceOf source) := by
  intro source outcome
  have htext : String.fromUTF8? source.toUTF8 = some source := by decide +kernel
  have hends : ((Session.new fun _ => 0).run 1 (sourceOf source)).1.ending ≠ some .exhausted := by
    decide +kernel
  have hrun : run 1 (fun _ => 0) (fun _ => .ok source.toUTF8) ["script"] "" = some outcome := by
    decide +kernel
  obtain ⟨other, hother, hanswers⟩ :=
    @exit_status_agrees 1 (fun _ => 0) (fun _ => .ok source.toUTF8) "script" "" source.toUTF8 source
      rfl htext hends
  obtain rfl := Option.some.inj (hrun.symm.trans hother)
  exact ⟨hrun, hanswers⟩

end CommandLine

end Lox
