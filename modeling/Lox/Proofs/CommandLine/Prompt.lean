import Lox.Proofs.CommandLine.ExitStatus
import Lox.Proofs.Session.Rejected
import Lox.Proofs.Text.Typed

namespace Lox.CommandLine

-- The lines that are not blank, as the steps of a session.
def typedSteps (fuel : Nat) (lines : List String) : List (Nat × String) :=
  (lines.filter fun line => !line.toList.all Text.isBlank).map fun line => (fuel, line)

-- What a line does after others: a blank one nothing, and any other what it does as the next step
-- of the session.
def stepAfter (fuel : Nat) (clock : Nat → Float) (earlier : List String) (line : String) : Step :=
  if line.toList.all Text.isBlank then ⟨"", [], none⟩
  else ((Session.after clock (typedSteps fuel earlier)).run fuel line).1

-- What lines do one after the other, after others.
def stepsAfter (fuel : Nat) (clock : Nat → Float) : (earlier lines : List String) → List Step
  | _, [] => []
  | earlier, line :: lines =>
    stepAfter fuel clock earlier line :: stepsAfter fuel clock (earlier ++ [line]) lines

-- What a conversation leaves behind in which this was done line by line.
def Outcome.ofSteps (steps : List Step) : Outcome where
  exit := 0
  stdout := banner ++ String.join (steps.map fun step => prompt ++ step.printed) ++ prompt ++ "\n"
  stderr := String.join (steps.map fun step => reports step.diagnostics)

theorem typedSteps_append (fuel : Nat) (lines others : List String) :
    typedSteps fuel (lines ++ others) = typedSteps fuel lines ++ typedSteps fuel others := by
  simp [typedSteps]

theorem typedSteps_blank (fuel : Nat) {line : String} (h : line.toList.all Text.isBlank) :
    typedSteps fuel [line] = [] := by
  simp [typedSteps, h]

theorem typedSteps_of_not_blank (fuel : Nat) {line : String} (h : ¬ line.toList.all Text.isBlank) :
    typedSteps fuel [line] = [(fuel, line)] := by
  simp [typedSteps, h]

-- The flags are taken back after each line, which makes no difference to the next one.
theorem answer_eq {fuel : Nat} {clock : Nat → Float} {earlier : List String} {session : Session}
    (h : session.state = (Session.after clock (typedSteps fuel earlier)).state) (line : String) :
    (answer fuel line session).1 = stepAfter fuel clock earlier line ∧
      (answer fuel line session).2.state =
        (Session.after clock (typedSteps fuel (earlier ++ [line]))).state := by
  rw [answer, stepAfter, typedSteps_append]
  by_cases hblank : line.toList.all Text.isBlank
  · rw [if_pos hblank, if_pos hblank, typedSteps_blank fuel hblank, List.append_nil]
    exact ⟨rfl, h⟩
  · rw [if_neg hblank, if_neg hblank, typedSteps_of_not_blank fuel hblank, Session.after_concat]
    exact Session.run_congr h fuel line

-- A line finishes if the session still ends with it.
theorem finished_iff_ends {fuel : Nat} {clock : Nat → Float} {earlier : List String}
    (h : Session.Ends clock (typedSteps fuel earlier)) (line : String) :
    (stepAfter fuel clock earlier line).finished = true ↔
      Session.Ends clock (typedSteps fuel (earlier ++ [line])) := by
  rw [stepAfter, typedSteps_append]
  by_cases hblank : line.toList.all Text.isBlank
  · rw [if_pos hblank, typedSteps_blank fuel hblank, List.append_nil]
    exact iff_of_true rfl h
  · rw [if_neg hblank, typedSteps_of_not_blank fuel hblank, Session.ends_concat,
      (Session.reachable_after clock _).textual.finished_iff]
    exact (and_iff_right h).symm

section

variable {α : Type} (t : Transcript)

theorem run_getLine_bind (k : String → StateM Transcript α) :
    (recorded.getLine >>= k).run t =
      (k (String.ofList (Text.firstLine t.unread).1)).run
        { t with unread := (Text.firstLine t.unread).2 } := rfl

theorem run_print_bind (text : String) (k : Unit → StateM Transcript α) :
    (recorded.print text >>= k).run t = (k ()).run { t with stdout := t.stdout ++ text } := rfl

theorem run_printError_bind (text : String) (k : Unit → StateM Transcript α) :
    (recorded.printError text >>= k).run t = (k ()).run { t with stderr := t.stderr ++ text } := rfl

end

-- One turn of a conversation in which a line is read.
theorem converse_line (fuel turns : Nat) (session : Session) {text raw rest : List Char}
    {line : String} (hfirst : Text.firstLine text = (raw, rest))
    (hentered : entered? (String.ofList raw) = some line) (stdout stderr : String) :
    (converse recorded fuel (turns + 1) session).run ⟨text, stdout, stderr⟩ =
      let (step, next) := answer fuel line session
      let t : Transcript :=
        ⟨rest, stdout ++ prompt ++ step.printed, stderr ++ reports step.diagnostics⟩
      if step.finished then (converse recorded fuel turns next).run t else (false, t) := by
  rw [converse, run_print_bind, run_getLine_bind]
  dsimp only
  rw [hfirst, hentered]
  dsimp only
  rw [run_print_bind, run_printError_bind]
  split <;> rfl

theorem entered_feed {line : String} (h : '\n' ∉ line.toList) :
    entered? (String.ofList (line.toList ++ ['\n'])) = some line := by
  rw [entered?, if_neg (by simp), String.toList_ofList,
    Source.takeWhile_of_stop (Source.forall_ne_of_notMem h) (by decide), String.ofList_toList]

theorem entered_last {line : String} (h : '\n' ∉ line.toList) (hne : line ≠ "") :
    entered? (String.ofList line.toList) = some line := by
  rw [String.ofList_toList, entered?, if_neg hne,
    List.takeWhile_eq_self_iff.2 (Source.forall_ne_of_notMem h), String.ofList_toList]

-- How a conversation goes on with lines that are typed in after others, if so much was written
-- before: it reaches the end of the input if all the lines finish, and else it does not.
structure GoesOn (fuel : Nat) (clock : Nat → Float) (earlier lines : List String)
    (stdout stderr : String) (result : Bool × Transcript) : Prop where
  ended : Session.Ends clock (typedSteps fuel (earlier ++ lines)) →
    let steps := stepsAfter fuel clock earlier lines
    result = (true, ⟨[],
      stdout ++ String.join (steps.map fun step => prompt ++ step.printed) ++ prompt ++ "\n",
      stderr ++ String.join (steps.map fun step => reports step.diagnostics)⟩)
  stuck : ¬ Session.Ends clock (typedSteps fuel (earlier ++ lines)) → result.1 = false

section

variable {fuel : Nat} {clock : Nat → Float} {earlier lines : List String} {session : Session}

-- If the rest of a conversation goes on with the other lines, all of it does with one more before
-- them.
theorem goesOn_line {turns : Nat} {text raw rest : List Char} {line : String}
    (hfirst : Text.firstLine text = (raw, rest))
    (hentered : entered? (String.ofList raw) = some line)
    (hstate : session.state = (Session.after clock (typedSteps fuel earlier)).state)
    (hearlier : Session.Ends clock (typedSteps fuel earlier)) (stdout stderr : String)
    (hrest : ∀ next stdout stderr,
      next.state = (Session.after clock (typedSteps fuel (earlier ++ [line]))).state →
      Session.Ends clock (typedSteps fuel (earlier ++ [line])) →
      GoesOn fuel clock (earlier ++ [line]) lines stdout stderr
        ((converse recorded fuel turns next).run ⟨rest, stdout, stderr⟩)) :
    GoesOn fuel clock earlier (line :: lines) stdout stderr
      ((converse recorded fuel (turns + 1) session).run ⟨text, stdout, stderr⟩) := by
  obtain ⟨hstep, hnext⟩ := answer_eq hstate line
  have hfinished := finished_iff_ends hearlier line
  have hlines : earlier ++ line :: lines = earlier ++ [line] ++ lines := by simp
  rw [converse_line fuel turns session hfirst hentered]
  dsimp only
  rw [hstep]
  by_cases hends : Session.Ends clock (typedSteps fuel (earlier ++ [line]))
  · have hgoes := hrest _ (stdout ++ prompt ++ (stepAfter fuel clock earlier line).printed)
      (stderr ++ reports (stepAfter fuel clock earlier line).diagnostics) hnext hends
    rw [if_pos (hfinished.2 hends)]
    refine ⟨fun hall => ?_, fun hnot => hgoes.stuck (hlines ▸ hnot)⟩
    rw [hgoes.ended (hlines ▸ hall)]
    simp [stepsAfter, String.join_cons, String.append_assoc]
  · rw [if_neg (hfinished.not.2 hends)]
    refine ⟨fun hall => absurd ?_ hends, fun _ => rfl⟩
    rw [hlines, typedSteps_append] at hall
    exact hall.of_append

theorem goesOn_nothing (turns : Nat) (session : Session)
    (hearlier : Session.Ends clock (typedSteps fuel earlier)) (stdout stderr : String) :
    GoesOn fuel clock earlier [] stdout stderr
      ((converse recorded fuel (turns + 1) session).run ⟨[], stdout, stderr⟩) where
  ended _ := by
    have hend : (converse recorded fuel (turns + 1) session).run ⟨[], stdout, stderr⟩ =
        (true, ⟨[], stdout ++ prompt ++ "\n", stderr⟩) := rfl
    rw [hend]
    simp [stepsAfter, String.join]
  stuck hnot := by
    rw [List.append_nil] at hnot
    exact absurd hearlier hnot

-- By induction on the lines of the text: each turn answers one of them, and leaves the state that
-- the same step leaves in a session.
theorem goesOn_typed {text : List Char} (h : Text.Typed text lines) {turns : Nat}
    (hturns : lines.length < turns)
    (hstate : session.state = (Session.after clock (typedSteps fuel earlier)).state)
    (hearlier : Session.Ends clock (typedSteps fuel earlier)) (stdout stderr : String) :
    GoesOn fuel clock earlier lines stdout stderr
      ((converse recorded fuel turns session).run ⟨text, stdout, stderr⟩) := by
  induction h generalizing turns earlier session stdout stderr with
  | nothing =>
    obtain ⟨turns, rfl⟩ := Nat.exists_eq_succ_of_ne_zero (Nat.ne_zero_of_lt hturns)
    exact goesOn_nothing turns session hearlier stdout stderr
  | @last line hfeed hne =>
    obtain ⟨turns, rfl⟩ := Nat.exists_eq_add_of_le' hturns
    exact goesOn_line (Text.firstLine_last hfeed) (entered_last hfeed hne) hstate hearlier stdout
      stderr fun next stdout stderr _ hearlier => goesOn_nothing turns next hearlier stdout stderr
  | @line line rest lines hfeed h ih =>
    obtain ⟨turns, rfl⟩ := Nat.exists_eq_succ_of_ne_zero (Nat.ne_zero_of_lt hturns)
    exact goesOn_line (Text.firstLine_feed hfeed rest) (entered_feed hfeed) hstate hearlier stdout
      stderr fun next stdout stderr hstate hearlier =>
        ih (Nat.lt_of_succ_lt_succ hturns) hstate hearlier stdout stderr

end

-- The prompt over a text is a session over its lines that are not blank.
theorem run_prompt (fuel : Nat) (clock : Nat → Float) (read : String → Except Unreadable ByteArray)
    {input : String} {lines : List String} (h : Text.Typed input.toList lines) :
    (Session.Ends clock (typedSteps fuel lines) →
      run fuel clock read [] input = some (.ofSteps (stepsAfter fuel clock [] lines))) ∧
    (¬ Session.Ends clock (typedSteps fuel lines) → run fuel clock read [] input = none) := by
  have hturns : lines.length < input.length + 1 :=
    Nat.lt_succ_of_le (input.length_toList ▸ h.length_le)
  have hinteract : (interact recorded fuel (input.length + 1) clock).run ⟨input.toList, "", ""⟩ =
      (converse recorded fuel (input.length + 1) (.new clock)).run ⟨input.toList, banner, ""⟩ := by
    rw [interact, run_print_bind, String.empty_append]
  have hgoes : GoesOn fuel clock [] lines banner ""
      ((converse recorded fuel (input.length + 1) (.new clock)).run ⟨input.toList, banner, ""⟩) :=
    goesOn_typed h hturns rfl (Session.ends_nil clock) banner ""
  rw [run, hinteract]
  constructor
  · intro hends
    rw [hgoes.ended hends]
    simp [Outcome.ofSteps]
  · intro hnot
    exact if_neg (Bool.eq_false_iff.1 (hgoes.stuck hnot))

end Lox.CommandLine

namespace Lox

open Session CommandLine

-- A text that is rejected leaves no trace but its reports and the flag for rejected texts. After
-- every step of a session that flag says whether any text was rejected, and the other whether
-- the last accepted one failed; the exit status follows from both. A rejected step prints nothing
-- and changes nothing that the other steps can see: without the rejected steps, every other does
-- and leaves the same. The prompt is such a session over the lines that are not blank and exits
-- with 0, but it has no outcome if a line does not finish.
theorem rejected_steps_leave_no_trace (clock : Nat → Float) (steps : List (Nat × String)) :
    ((after clock steps).hadError ↔ SomeRejected steps) ∧
    (Ends clock steps →
      ((after clock steps).hadRuntimeError ↔ FailedLast clock steps) ∧
      ((after clock steps).exitCode = 65 ↔ SomeRejected steps) ∧
      ((after clock steps).exitCode = 70 ↔ ¬ SomeRejected steps ∧ FailedLast clock steps) ∧
      ((after clock steps).exitCode = 0 ↔ ¬ SomeRejected steps ∧ ¬ FailedLast clock steps)) ∧
    (∀ fuel source, ¬ Accepted source →
      ((after clock steps).run fuel source).1.printed = "" ∧
      ((after clock steps).run fuel source).2.state = (after clock steps).state) ∧
    (∀ fuel source, Accepted source →
      ((after clock (kept steps)).run fuel source).1 = ((after clock steps).run fuel source).1 ∧
      ((after clock (kept steps)).run fuel source).2.state =
        ((after clock steps).run fuel source).2.state ∧
      ((after clock (kept steps)).run fuel source).2.hadRuntimeError =
        ((after clock steps).run fuel source).2.hadRuntimeError) ∧
    ∀ fuel read input,
      (∃ lines, Text.Typed input.toList lines) ∧
      ∀ lines, Text.Typed input.toList lines →
        (Ends clock (typedSteps fuel lines) →
          let answers := stepsAfter fuel clock [] lines
          CommandLine.run fuel clock read [] input = some ⟨0,
            banner ++ String.join (answers.map fun step => prompt ++ step.printed) ++
              prompt ++ "\n",
            String.join (answers.map fun step => reports step.diagnostics)⟩) ∧
        (¬ Ends clock (typedSteps fuel lines) →
          CommandLine.run fuel clock read [] input = none) := by
  refine ⟨hadError_after clock steps, fun hends => ?_, fun fuel source hsource => ?_,
    fun fuel source hsource => ?_, fun fuel read input => ?_⟩
  · rw [← hadError_after clock, ← hadRuntimeError_after hends]
    exact ⟨Iff.rfl, exitCode_eq _⟩
  · rw [run_of_rejected hsource]
    exact ⟨rfl, rfl⟩
  · obtain ⟨hstate, hflag⟩ := after_kept clock steps
    obtain ⟨hstep, hleft⟩ := run_congr hstate fuel source
    refine ⟨hstep, hleft, ?_⟩
    rw [run_of_accepted hsource, run_of_accepted hsource, hstate, hflag]
  · exact ⟨Text.exists_typed _, fun lines h => run_prompt fuel clock read h⟩

-- A line that prints a carriage return, a rejected one and a blank one after one that declares a
-- variable. The last one has no line feed, and it fails with and without the rejected one. A line
-- that loops forever has no outcome.
theorem rejected_steps_leave_no_trace_between :
    let input := "var a;\nprint \"b\rc\";\nvar;\n \na();"
    let lines := ["var a;", "print \"b\rc\";", "var;", " ", "a();"]
    let steps := [(1, "var a;"), (1, "print \"b\rc\";"), (1, "var;")]
    let session := after (fun _ => 0) (steps ++ [(1, "a();")])
    session.hadError ∧ session.hadRuntimeError ∧ session.exitCode = 65 ∧
      ((after (fun _ => 0) steps).run 1 "var;").1.printed = "" ∧
      ((after (fun _ => 0) (kept steps)).run 1 "a();").1 =
        ((after (fun _ => 0) steps).run 1 "a();").1 ∧
      Text.Typed input.toList lines ∧
      CommandLine.run 1 (fun _ => 0) (fun _ => .error .missing) [] input =
        some ⟨0, "Lox REPL (Ctrl+D to exit)\n> > b\rc\n> > > > \n",
          "[Line 1] Error at ';': Expect variable name.\n" ++
            "[Line 1] RuntimeError at ')': Can only call functions.\n"⟩ ∧
      CommandLine.run 1 (fun _ => 0) (fun _ => .error .missing) [] "while (true) 1;" = none := by
  intro input lines steps session
  have hbad : ¬ Accepted "var;" := by decide +kernel
  have hgood : Accepted "a();" := by decide +kernel
  have hends : Ends (fun _ => 0) (steps ++ [(1, "a();")]) := by
    have hempty := ends_nil fun _ => 0
    refine ends_concat.2 ⟨ends_concat.2 ⟨ends_concat.2 ⟨ends_concat.2 ⟨hempty, ?_⟩, ?_⟩, ?_⟩, ?_⟩
    all_goals decide +kernel
  have hrejected : SomeRejected (steps ++ [(1, "a();")]) := ⟨(1, "var;"), by simp [steps], hbad⟩
  have hfailed : FailedLast (fun _ => 0) (steps ++ [(1, "a();")]) := by
    refine (failedLast_concat_accepted hgood).2 ⟨⟨⟨.rightParen, ")", .nil, 1⟩, .notCallable⟩, ?_⟩
    decide +kernel
  have htext : input.toList =
      "var a;".toList ++ '\n' :: ("print \"b\rc\";".toList ++ '\n' :: ("var;".toList ++ '\n' ::
        (" ".toList ++ '\n' :: "a();".toList))) := by decide +kernel
  have htyped : Text.Typed input.toList lines := by
    rw [htext]
    exact .line (by decide) (.line (by decide) (.line (by decide) (.line (by decide)
      (.last (by decide) (by decide)))))
  obtain ⟨herror, hflags, -⟩ := rejected_steps_leave_no_trace (fun _ => 0) (steps ++ [(1, "a();")])
  obtain ⟨hruntime, hexit, -⟩ := hflags hends
  obtain ⟨-, -, hsilent, hsame, hprompt⟩ := rejected_steps_leave_no_trace (fun _ => 0) steps
  obtain ⟨-, htyping⟩ := hprompt 1 (fun _ => .error .missing) input
  obtain ⟨hanswered, -⟩ := htyping lines htyped
  have hloop : ¬ Ends (fun _ => 0) (typedSteps 1 ["while (true) 1;"]) := by
    intro h
    refine h [] 1 "while (true) 1;" [] (by decide +kernel) ?_
    decide +kernel
  obtain ⟨-, hlooping⟩ := (hprompt 1 (fun _ => .error .missing) "while (true) 1;").2 _
    (.last (by decide) (by decide))
  refine ⟨herror.2 hrejected, hruntime.2 hfailed, hexit.2 hrejected, (hsilent 1 "var;" hbad).1,
    (hsame 1 "a();" hgood).1, htyped, (hanswered hends).trans ?_, hlooping hloop⟩
  decide +kernel

end Lox
