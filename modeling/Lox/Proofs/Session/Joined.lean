import Lox.Proofs.Session.JoinedText
import Lox.Proofs.Session.NeverFaulted

namespace Lox

-- What a diagnostic becomes if the token that it points at is so many lines further down.
def Diagnostic.lowered (lines : Int) (d : Diagnostic) : Diagnostic :=
  { d with line := d.line + lines, token := d.token.map (·.relined (Token.lineAfter lines)) }

namespace Session

-- Runs texts one after the other, up to the first that does not run to its end, and gives what
-- each of them did.
def runUntil (fuel : Nat) : List String → Session → List Step × Session
  | [], session => ([], session)
  | source :: sources, session =>
    let (step, next) := session.run fuel source
    if step.ending = some .completed then
      let (steps, last) := runUntil fuel sources next
      (step :: steps, last)
    else
      ([step], next)

-- A token of the text at some place of a list.
def TokenAt (sources : List String) (j : Nat) (t : Token) : Prop :=
  ∃ source, sources[j]? = some source ∧ t ∈ (Source.scan source).tokens

-- Where an error of the steps is from: one of the texts, or what was there before them.
def RaisedIn (sources : List String) (steps : List Step) : Option Nat → Prop
  | none => True
  | some j => ∀ d ∈ steps.flatMap Step.diagnostics, ∃ t, TokenAt sources j t ∧ d.token = some t

theorem RaisedIn.congr {sources : List String} {steps steps' : List Step} {origin : Option Nat}
    (h : RaisedIn sources steps origin)
    (hsteps : steps.flatMap Step.diagnostics = steps'.flatMap Step.diagnostics) :
    RaisedIn sources steps' origin := by
  cases origin with
  | none => trivial
  | some j => exact fun d hd => h d (hsteps ▸ hd)

-- A run that does, up to lines, what several steps do together, and leaves the same session. The
-- tokens that errors point at are so many lines further down.
structure DoesTheSame (lines : Int) (steps : List Step) (last : Session) (step : Step)
    (session : Session) : Prop where
  printed : step.printed = String.join (steps.map Step.printed)
  diagnostics : step.diagnostics = (steps.flatMap Step.diagnostics).map (·.lowered lines)
  ending : step.ending =
    (steps.getLast?.bind Step.ending).map (·.relined (Token.lineAfter lines))
  hadError : session.hadError = last.hadError
  hadRuntimeError : step.ending ≠ some .exhausted →
    session.hadRuntimeError = last.hadRuntimeError
  globals : session.state.globals.map (fun (name, value) => (name, value.relined fun _ => 0)) =
    last.state.globals.map (fun (name, value) => (name, value.relined fun _ => 0))
  state : session.state.unlined = last.state.unlined

theorem runUntil_cons {source : String} (h : Accepted source) (fuel : Nat) (sources : List String)
    (session : Session) :
    session.runUntil fuel (source :: sources) =
      let ended := Run.run fuel (statementsOf source) session.state
      let step : Step := ⟨ended.2.printed, diagnosticsOf ended.1, some ended.1⟩
      let next : Session := ⟨ended.2, session.hadError, flagAfter session.hadRuntimeError ended.1⟩
      if ended.1 = .completed then
        (step :: (next.runUntil fuel sources).1, (next.runUntil fuel sources).2)
      else
        ([step], next) := by
  rw [runUntil, run_of_accepted h]
  dsimp only
  simp only [Option.some.injEq]

-- What steps did together: how the last of them ended, the state it left, and all that was
-- printed.
structure AddsUp (result : Run.Ending × Run.State × String) (steps : List Step) (last : Session) :
    Prop where
  printed : String.join (steps.map Step.printed) = result.2.2
  diagnostics : steps.flatMap Step.diagnostics = diagnosticsOf result.1
  ending : steps.getLast?.bind Step.ending = some result.1
  hadRuntimeError : ∃ before, last.hadRuntimeError = flagAfter before result.1
  state : last.state = result.2.1

theorem addsUp_cons {result : Run.Ending × Run.State × String} {steps : List Step} {last : Session}
    (h : AddsUp result steps last) (text : String) :
    AddsUp (result.1, result.2.1, text ++ result.2.2) (⟨text, [], some .completed⟩ :: steps)
      last where
  printed := by simp [h.printed]
  diagnostics := by simpa using h.diagnostics
  ending := by
    have hending := h.ending
    cases hlast : steps.getLast? with
    | none => simp [hlast] at hending
    | some step => simpa [List.getLast?_cons, hlast] using hending
  hadRuntimeError := h.hadRuntimeError
  state := h.state

-- Texts that run one after the other do what their statements do.
theorem addsUp_runUntil (fuel : Nat) {sources : List String} (hne : sources ≠ [])
    (h : ∀ source ∈ sources, Accepted source) (session : Session) :
    AddsUp (Run.runEach fuel (sources.map statementsOf) session.state)
      (session.runUntil fuel sources).1 (session.runUntil fuel sources).2 := by
  induction sources generalizing session with
  | nil => exact absurd rfl hne
  | cons source sources ih =>
    obtain ⟨hfirst, hrest⟩ := List.forall_mem_cons.1 h
    rw [runUntil_cons hfirst, List.map_cons, Run.runEach]
    rcases Run.run fuel (statementsOf source) session.state with ⟨ending, t⟩
    cases ending with
    | completed =>
      dsimp only
      rw [if_pos rfl]
      by_cases hsources : sources = []
      · subst hsources
        exact ⟨by simp [runUntil, Run.runEach], rfl, rfl, ⟨session.hadRuntimeError, rfl⟩, rfl⟩
      · exact addsUp_cons (ih hsources hrest ⟨t, session.hadError, false⟩) t.printed
    | _ => exact ⟨by simp, by simp, rfl, ⟨session.hadRuntimeError, rfl⟩, rfl⟩

theorem hadError_runUntil (fuel : Nat) {sources : List String}
    (h : ∀ source ∈ sources, Accepted source) (session : Session) :
    (session.runUntil fuel sources).2.hadError = session.hadError := by
  induction sources generalizing session with
  | nil => rfl
  | cons source sources ih =>
    obtain ⟨hfirst, hrest⟩ := List.forall_mem_cons.1 h
    rw [runUntil_cons hfirst]
    dsimp only
    split
    · exact ih hrest _
    · rfl

-- The global names of a state are those that later programs can see.
theorem globals_unlined (s : Run.State) :
    s.unlined.globals = s.globals.map fun (name, value) => (name, value.relined fun _ => 0) := by
  have hscope : s.unlined.heap[Run.globalScope]? =
      s.heap[Run.globalScope]?.map (Scope.relined fun _ => 0) :=
    Heap.getElem?_relined _ s.heap Run.globalScope
  rw [Run.State.globals, hscope, Run.State.globals]
  cases s.heap[Run.globalScope]? with
  | none => rfl
  | some scope =>
    refine (List.map_mergeSort ?_).symm
    intro a _ b _
    rfl

theorem flagAfter_eq {ending : Run.Ending} (hf : ∀ f, ending ≠ .faulted f)
    (he : ending ≠ .exhausted) (before before' : Bool) :
    flagAfter before ending = flagAfter before' ending := by
  cases ending with
  | completed => rfl
  | failed e => rfl
  | faulted f => exact absurd rfl (hf f)
  | exhausted => exact absurd rfl he

theorem flagAfter_relined (before : Bool) (f : Token → Int) (ending : Run.Ending) :
    flagAfter before (ending.relined f) = flagAfter before ending := by
  cases ending <;> rfl

theorem diagnosticsOf_relined (lines : Int) (ending : Run.Ending) :
    diagnosticsOf (ending.relined (Token.lineAfter lines)) =
      (diagnosticsOf ending).map (·.lowered lines) := by
  cases ending <;> rfl

theorem mem_diagnosticsOf {ending : Run.Ending} {d : Diagnostic} (h : d ∈ diagnosticsOf ending) :
    ∃ e, ending = .failed e ∧ d.token = some e.token := by
  cases ending with
  | failed e =>
    obtain rfl := List.mem_singleton.1 h
    exact ⟨e, rfl, rfl⟩
  | _ => cases h

-- The statements of accepted texts hold no tokens but those of their own text.
theorem obeys_statements {sources : List String} (hs : ∀ source ∈ sources, Accepted source)
    (j : Nat) (program : List Stmt) (h : (sources.map statementsOf)[j]? = some program) :
    Stmt.AllObey (.textual (TokenAt sources j)) program := by
  rw [List.getElem?_map] at h
  obtain ⟨source, hsource, rfl⟩ := Option.map_eq_some_iff.1 h
  exact (hs source (List.mem_of_getElem? hsource)).obeys fun t ht _ => ⟨source, hsource, ht⟩

theorem raisedIn_of_failed {result : Run.Ending × Run.State × String} {sources : List String}
    {steps : List Step} {last : Session} {origin : Option Nat} (hsum : AddsUp result steps last)
    (hfrom : ∀ e, result.1 = .failed e →
      origin = none ∧ True ∨ ∃ j, origin = some j ∧ TokenAt sources j e.token) :
    RaisedIn sources steps origin := by
  cases origin with
  | none => trivial
  | some j =>
    intro d hd
    rw [hsum.diagnostics] at hd
    obtain ⟨e, he, htoken⟩ := mem_diagnosticsOf hd
    obtain ⟨hnone, -⟩ | ⟨i, hi, ht⟩ := hfrom e he
    · cases hnone
    · obtain rfl := Option.some.inj hi
      exact ⟨e.token, ht, htoken⟩

-- With any empty lines between them, texts that are joined line by line do the same, and it is one
-- place that the errors are from.
theorem Reachable.exists_origin {clock : Nat → Float} {session : Session}
    (h : Reachable clock session) (fuel : Nat) {sources : List String} (hne : sources ≠ [])
    (hs : ∀ source ∈ sources, Accepted source) :
    ∃ origin, RaisedIn sources (session.runUntil fuel sources).1 origin ∧
      ∀ gap, Accepted ("\n".intercalate (padded gap sources)) ∧
        DoesTheSame (linesDown gap sources origin) (session.runUntil fuel sources).1
          (session.runUntil fuel sources).2
          (session.run fuel ("\n".intercalate (padded gap sources))).1
          (session.run fuel ("\n".intercalate (padded gap sources))).2 := by
  have hsum := addsUp_runUntil fuel hne hs session
  obtain ⟨origin, hfrom, hmoved⟩ :=
    Run.runEach_moved fuel _ session.state (obeys_statements hs) h.textual
  refine ⟨origin, raisedIn_of_failed hsum hfrom, fun gap => ?_⟩
  obtain ⟨haccepted, hstatements⟩ := accepted_joined hs gap
  obtain ⟨hending, hstate, htext⟩ := hmoved (linesDown gap sources) rfl
  have hfaulted := (h.textual.run fuel ("\n".intercalate (padded gap sources))).1
  rw [← hsum.state] at hstate
  refine ⟨haccepted, ?_⟩
  rw [run_of_accepted haccepted, hstatements, Run.run_flatten, hending, htext] at hfaulted ⊢
  refine ⟨hsum.printed.symm, ?_, ?_, ?_, fun hended => ?_, ?_, hstate⟩
  · rw [hsum.diagnostics]
    exact diagnosticsOf_relined _ _
  · rw [hsum.ending]
    rfl
  · exact (hadError_runUntil fuel hs session).symm
  · obtain ⟨before, hflag⟩ := hsum.hadRuntimeError
    rw [hflag, ← flagAfter_relined before (Token.lineAfter (linesDown gap sources origin))]
    exact flagAfter_eq (fun f hf => hfaulted f (congrArg some hf))
      (fun he => hended (congrArg some he)) _ _
  · rw [← globals_unlined, ← globals_unlined]
    exact congrArg Run.State.globals hstate

-- Accepted texts that are joined line by line are accepted, and running them as one does what
-- running them one after the other does, up to the first that does not run to its end. Only the
-- lines of tokens differ: an error at a token of one of the texts is on as many lines further down
-- as there are before that text, and an error at a token of an earlier program stays where it is.
-- Which of them it is does not depend on where the texts stand, so that empty lines between the
-- texts tell them apart.
theorem Reachable.run_joined {clock : Nat → Float} {session : Session}
    (h : Reachable clock session) (fuel : Nat) {sources : List String} (hne : sources ≠ [])
    (hs : ∀ source ∈ sources, Accepted source) :
    padded (fun _ => 0) sources = sources ∧
      ∃ origin, RaisedIn sources (session.runUntil fuel sources).1 origin ∧
        ∀ gap, Accepted ("\n".intercalate (padded gap sources)) ∧
          DoesTheSame (linesDown gap sources origin) (session.runUntil fuel sources).1
            (session.runUntil fuel sources).2
            (session.run fuel ("\n".intercalate (padded gap sources))).1
            (session.run fuel ("\n".intercalate (padded gap sources))).2 :=
  ⟨padded_zero sources, h.exists_origin fuel hne hs⟩

-- A line that prints and one that fails are accepted, one by one and joined.
theorem run_joined_print :
    Accepted "print nil;\nx;" ∧
      ∃ lines, DoesTheSame lines ((new fun _ => 0).runUntil 1 ["print nil;", "x;"]).1
        ((new fun _ => 0).runUntil 1 ["print nil;", "x;"]).2
        ((new fun _ => 0).run 1 "print nil;\nx;").1
        ((new fun _ => 0).run 1 "print nil;\nx;").2 := by
  have hs : ∀ source ∈ ["print nil;", "x;"], Accepted source := by
    intro source hsource
    obtain rfl | rfl : source = "print nil;" ∨ source = "x;" := by simpa using hsource
    · exact ⟨by decide +kernel, by decide +kernel⟩
    · exact ⟨by decide +kernel, by decide +kernel⟩
  obtain ⟨hzero, origin, -, hjoined⟩ :=
    (Reachable.new : Reachable (fun _ => 0) _).run_joined 1 (by simp) hs
  have htext : "\n".intercalate ["print nil;", "x;"] = "print nil;\nx;" := by decide +kernel
  obtain ⟨haccepted, hsame⟩ := hjoined fun _ => 0
  rw [hzero, htext] at haccepted hsame
  exact ⟨haccepted, _, hsame⟩

-- The error is on the second line of the joined text.
example : ((new fun _ => 0).run 1 "print nil;\nx;").1.diagnostics.map Diagnostic.line = [2] := by
  decide +kernel

end Session

end Lox
