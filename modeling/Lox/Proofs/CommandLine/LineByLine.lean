import Lox.Proofs.CommandLine.Prompt
import Lox.Proofs.Session.Joined
import Lox.Proofs.Source.Blank

namespace Lox

theorem statementsOf_of_blank {source : String} (h : source.toList.all Text.isBlank) :
    statementsOf source = [] := by
  rw [statementsOf, Source.scan, Source.tokens_collect, Source.words_of_blank (by simpa using h)]
  rfl

-- What a step writes.
def Step.written (step : Step) : String × List Diagnostic :=
  (step.printed, step.diagnostics)

namespace Session

-- How far the loops and calls of a session have come makes no difference to its next text.
theorem run_of_started {source : String} (h : Accepted source) {session session' : Session}
    (hstate : session.state.started = session'.state.started) (fuel : Nat) :
    (session.run fuel source).1 = (session'.run fuel source).1 ∧
      (session.run fuel source).2.state = (session'.run fuel source).2.state := by
  have hrun : ∀ program, Run.run fuel program session.state =
      Run.run fuel program session'.state := fun program => by
    rw [Run.run_eq, hstate, Run.run_eq]
  rw [run_of_accepted h, run_of_accepted h, hrun]
  exact ⟨rfl, rfl⟩

theorem run_of_blank {source : String} (h : Accepted source)
    (hblank : source.toList.all Text.isBlank) (fuel : Nat) (session : Session) :
    session.run fuel source =
      (⟨"", [], some .completed⟩, ⟨session.state.started, session.hadError, false⟩) := by
  rw [run_of_accepted h, statementsOf_of_blank hblank]
  rfl

-- An accepted text that finishes tells its author nothing if and only if it is completed.
theorem completed_iff {source : String} (h : Accepted source) {fuel : Nat} {session : Session}
    (hfinished : (session.run fuel source).1.finished = true) :
    (session.run fuel source).1.ending = some .completed ↔
      (session.run fuel source).1.diagnostics.isEmpty := by
  rw [run_of_accepted h] at hfinished ⊢
  rcases hrun : Run.run fuel (statementsOf source) session.state with ⟨ending, state⟩
  rw [hrun] at hfinished
  cases ending with
  | completed => simp [diagnosticsOf]
  | failed e => simp [diagnosticsOf]
  | faulted f => cases hfinished
  | exhausted => cases hfinished

theorem exitCode_of_accepted {source : String} (h : Accepted source) {fuel : Nat}
    {clock : Nat → Float} (hfinished : ((new clock).run fuel source).1.finished = true) :
    ((new clock).run fuel source).2.exitCode =
      if ((new clock).run fuel source).1.diagnostics.isEmpty then 0 else 70 := by
  rw [run_of_accepted h] at hfinished ⊢
  rcases hrun : Run.run fuel (statementsOf source) (new clock).state with ⟨ending, state⟩
  rw [hrun] at hfinished
  cases ending with
  | completed => rfl
  | failed e => rfl
  | faulted f => cases hfinished
  | exhausted => cases hfinished

end Session

namespace CommandLine

-- Steps up to the first whose author is told something.
def untilTold : List Step → List Step
  | [] => []
  | step :: steps => if step.diagnostics.isEmpty then step :: untilTold steps else [step]

variable {fuel : Nat} {clock : Nat → Float}

-- A line of a script does what it does at the prompt. Only the prompt passes over blank lines.
theorem run_line {earlier : List String} {line : String} {session : Session}
    (hline : Accepted line)
    (hstate : session.state.started =
      (Session.after clock (typedSteps fuel earlier)).state.started)
    (hearlier : Session.Ends clock (typedSteps fuel earlier))
    (hends : Session.Ends clock (typedSteps fuel (earlier ++ [line]))) :
    (session.run fuel line).1.written = (stepAfter fuel clock earlier line).written ∧
      (session.run fuel line).1.finished = true ∧
      (session.run fuel line).2.state.started =
        (Session.after clock (typedSteps fuel (earlier ++ [line]))).state.started := by
  have hfinished := (finished_iff_ends hearlier line).2 hends
  rw [typedSteps_append]
  rw [stepAfter] at hfinished ⊢
  by_cases hblank : line.toList.all Text.isBlank
  · rw [if_pos hblank, typedSteps_blank fuel hblank, List.append_nil,
      Session.run_of_blank hline hblank]
    exact ⟨rfl, rfl, hstate⟩
  · obtain ⟨hstep, hnext⟩ := Session.run_of_started hline hstate fuel
    rw [if_neg hblank] at hfinished ⊢
    rw [typedSteps_of_not_blank fuel hblank, Session.after_concat, hstep, hnext]
    exact ⟨rfl, hfinished, rfl⟩

theorem runUntil_typed {earlier lines : List String} {session : Session}
    (haccepted : ∀ line ∈ lines, Accepted line)
    (hstate : session.state.started =
      (Session.after clock (typedSteps fuel earlier)).state.started)
    (hends : Session.Ends clock (typedSteps fuel (earlier ++ lines))) :
    (session.runUntil fuel lines).1.map Step.written =
        (untilTold (stepsAfter fuel clock earlier lines)).map Step.written ∧
      ∀ step ∈ (session.runUntil fuel lines).1, step.finished = true := by
  induction lines generalizing earlier session with
  | nil => exact ⟨rfl, by simp [Session.runUntil]⟩
  | cons line lines ih =>
    obtain ⟨hline, hlines⟩ := List.forall_mem_cons.1 haccepted
    rw [List.append_cons] at hends
    have hfirst := (typedSteps_append fuel (earlier ++ [line]) lines ▸ hends).of_append
    have hearlier := (typedSteps_append fuel earlier [line] ▸ hfirst).of_append
    obtain ⟨hwritten, hfinished, hnext⟩ := run_line hline hstate hearlier hfirst
    have hdone := Session.completed_iff hline hfinished
    have htold : (session.run fuel line).1.diagnostics =
        (stepAfter fuel clock earlier line).diagnostics := congrArg Prod.snd hwritten
    rw [Session.runUntil, stepsAfter, untilTold, ← htold]
    dsimp only
    by_cases hnone : (session.run fuel line).1.diagnostics.isEmpty
    · obtain ⟨hothers, hall⟩ := ih hlines hnext hends
      rw [if_pos (hdone.2 hnone), if_pos hnone, List.map_cons, List.map_cons, hwritten, hothers]
      exact ⟨rfl, List.forall_mem_cons.2 ⟨hfinished, hall⟩⟩
    · rw [if_neg (hdone.not.2 hnone), if_neg hnone, List.map_singleton, List.map_singleton,
        hwritten]
      exact ⟨rfl, List.forall_mem_singleton.2 hfinished⟩

theorem stepsAfter_append (fuel : Nat) (clock : Nat → Float) (earlier lines others : List String) :
    stepsAfter fuel clock earlier (lines ++ others) =
      stepsAfter fuel clock earlier lines ++ stepsAfter fuel clock (earlier ++ lines) others := by
  induction lines generalizing earlier with
  | nil => simp [stepsAfter]
  | cons line lines ih => simp [stepsAfter, ih]

-- A step that writes nothing makes no difference at the end.
theorem untilTold_append_silent (steps : List Step) :
    String.join ((untilTold (steps ++ [⟨"", [], none⟩])).map Step.printed) =
        String.join ((untilTold steps).map Step.printed) ∧
      (untilTold (steps ++ [⟨"", [], none⟩])).flatMap Step.diagnostics =
        (untilTold steps).flatMap Step.diagnostics := by
  induction steps with
  | nil => exact ⟨rfl, rfl⟩
  | cons step steps ih =>
    obtain ⟨hprinted, hdiagnostics⟩ := ih
    rw [List.cons_append, untilTold, untilTold]
    split
    · simp only [List.map_cons, String.join_cons, List.flatMap_cons, hprinted, hdiagnostics,
        and_self]
    · exact ⟨rfl, rfl⟩

theorem untilTold_isEmpty (steps : List Step) :
    ((untilTold steps).flatMap Step.diagnostics).isEmpty =
      steps.all (·.diagnostics.isEmpty) := by
  induction steps with
  | nil => rfl
  | cons step steps ih =>
    rw [untilTold, List.all_cons]
    by_cases h : step.diagnostics.isEmpty
    · rw [if_pos h, h, Bool.true_and, ← ih, List.flatMap_cons, List.isEmpty_iff.1 h,
        List.nil_append]
    · simp [h]

-- Lines that are joined finish if they do one by one, and write the same up to the first that
-- fails.
theorem run_joined_lines {sources : List String} (hne : sources ≠ [])
    (haccepted : ∀ source ∈ sources, Accepted source)
    (hends : Session.Ends clock (typedSteps fuel sources)) :
    let told := untilTold (stepsAfter fuel clock [] sources)
    let joined := (Session.new clock).run fuel ("\n".intercalate sources)
    Accepted ("\n".intercalate sources) ∧ joined.1.finished = true ∧
      joined.1.printed = String.join (told.map Step.printed) ∧
      ∃ origin, Session.RaisedIn sources told origin ∧
        joined.1.diagnostics = (told.flatMap Step.diagnostics).map
          (·.lowered (linesDown (fun _ => 0) sources origin)) := by
  intro told joined
  have hnew : Session.Reachable clock (.new clock) := .new
  obtain ⟨origin, hraised, hjoined⟩ := hnew.exists_origin fuel hne haccepted
  obtain ⟨hwhole, hsame⟩ := hjoined fun _ => 0
  rw [padded_zero] at hwhole hsame
  have hstate : (Session.new clock).state.started =
      (Session.after clock (typedSteps fuel [])).state.started := rfl
  obtain ⟨hwritten, hfinished⟩ := runUntil_typed haccepted hstate hends
  have hprinted := congrArg (List.map Prod.fst) hwritten
  have hdiagnostics := congrArg (List.flatMap Prod.snd) hwritten
  simp only [List.map_map, List.flatMap_map] at hprinted hdiagnostics
  refine ⟨hwhole, ?_, hsame.printed.trans (congrArg String.join hprinted), origin,
    hraised.congr hdiagnostics, hsame.diagnostics.trans (congrArg _ hdiagnostics)⟩
  rw [(Session.textual_new clock).finished_iff, hsame.ending]
  intro hexhausted
  obtain ⟨ending, hlast, hending⟩ := Option.map_eq_some_iff.1 hexhausted
  obtain ⟨step, hmem, hstep⟩ := Option.bind_eq_some_iff.1 hlast
  have hstepped := hfinished step (List.mem_of_getLast? hmem)
  rw [Step.finished, hstep] at hstepped
  cases ending with
  | exhausted => cases hstepped
  | _ => cases hending

-- A script and its lines at the prompt do the same up to the first line that fails. The prompt goes
-- on behind it, and the script ends. The error is on as many lines further down in it as there are
-- before the line that the error's token is from.
theorem script_line_by_line {read : String → Except Unreadable ByteArray} {path text : String}
    {script : ByteArray} {lines : List String} (hread : read path = .ok script)
    (htext : String.fromUTF8? script = some text) (hreturn : '\r' ∉ text.toList)
    (htyped : Text.Typed text.toList lines) (haccepted : ∀ line ∈ lines, Accepted line)
    (hends : Session.Ends clock (typedSteps fuel lines)) (input : String) :
    let steps := stepsAfter fuel clock [] lines
    run fuel clock read [] text = some (.ofSteps steps) ∧
      ∃ sources origin, (sources = lines ∨ sources = lines ++ [""]) ∧
        Session.RaisedIn sources (untilTold steps) origin ∧
        run fuel clock read [path] input = some
          ⟨if steps.all (·.diagnostics.isEmpty) then 0 else 70,
            String.join ((untilTold steps).map Step.printed),
            reports (((untilTold steps).flatMap Step.diagnostics).map
              (·.lowered (linesDown (fun _ => 0) sources origin)))⟩ := by
  intro steps
  obtain ⟨sources, hne, hsources, hjoined⟩ := htyped.exists_joined
  rw [String.ofList_toList] at hjoined
  have hsource : sourceOf text = "\n".intercalate sources := by
    rw [sourceOf, Text.normalizeNewlines_eq_self hreturn, String.ofList_toList, hjoined]
  -- The line after a line feed at the end is blank, and it is none at the prompt.
  obtain ⟨hall, hsteps, hout, herr⟩ : (∀ source ∈ sources, Accepted source) ∧
      typedSteps fuel sources = typedSteps fuel lines ∧
      String.join ((untilTold (stepsAfter fuel clock [] sources)).map Step.printed) =
        String.join ((untilTold steps).map Step.printed) ∧
      (untilTold (stepsAfter fuel clock [] sources)).flatMap Step.diagnostics =
        (untilTold steps).flatMap Step.diagnostics := by
    obtain rfl | rfl := hsources
    · exact ⟨haccepted, rfl, rfl, rfl⟩
    · have hempty : Accepted "" := by decide +kernel
      refine ⟨List.forall_mem_append.2 ⟨haccepted, List.forall_mem_singleton.2 hempty⟩, ?_, ?_⟩
      · rw [typedSteps_append, typedSteps_blank fuel (by decide), List.append_nil]
      · rw [stepsAfter_append]
        exact untilTold_append_silent steps
  obtain ⟨hwhole, hfinished, hprinted, origin, hraised, hdiagnostics⟩ :=
    run_joined_lines hne hall (hsteps ▸ hends)
  rw [hout] at hprinted
  rw [herr] at hdiagnostics
  rw [← hsource] at hwhole hfinished hprinted hdiagnostics
  refine ⟨(run_prompt fuel clock read htyped).1 hends, sources, origin, hsources,
    hraised.congr herr, ?_⟩
  rw [run_script hread htext hfinished]
  dsimp only
  rw [Session.exitCode_of_accepted hwhole hfinished, hprinted, hdiagnostics, List.isEmpty_map,
    untilTold_isEmpty]

-- The prompt goes on after the second line.
example :
    let text := "print nil;\nx;\nprint true;\n"
    let read := fun _ => .ok text.toUTF8
    run 1 (fun _ => 0) read ["script"] "" =
        some ⟨70, "nil\n", "[Line 2] RuntimeError at 'x': Undefined variable 'x'.\n"⟩ ∧
      run 1 (fun _ => 0) read [] text =
        some ⟨0, "Lox REPL (Ctrl+D to exit)\n> nil\n> > true\n> \n",
          "[Line 1] RuntimeError at 'x': Undefined variable 'x'.\n"⟩ := by
  decide +kernel

end CommandLine

end Lox
