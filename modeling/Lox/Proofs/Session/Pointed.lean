import Lox.Proofs.Session.NeverFaulted
import Lox.Proofs.Source.Place
import Lox.Proofs.Syntax.Pointed

namespace Lox

-- A diagnostic that points at a token of a text. Its location shows what stands at the place of
-- that token, or that this is the end, and its line counts the line feeds up to the token's end.
structure Diagnostic.PointsAt (d : Diagnostic) (source : String) (t : Token)
    (before after : List Char) : Prop where
  token : d.token = some t
  scanned : t ∈ (Source.scan source).tokens
  stands : Source.Stands source t before after
  line : d.line = 1 + (before ++ t.lexeme.toList).count '\n'
  atEnd : d.location = " at end" ↔ t.kind = .eof
  atLexeme : t.kind ≠ .eof → d.location = " at '" ++ t.lexeme ++ "'"

def Diagnostic.PointsInto (d : Diagnostic) (source : String) : Prop :=
  ∃ t before after, d.PointsAt source t before after

theorem Diagnostic.pointsInto_of_mem {d : Diagnostic} {source : String} {t : Token}
    (htoken : d.token = some t) (hline : d.line = t.line)
    (h : t ∈ (Source.scan source).tokens) : d.PointsInto source := by
  obtain ⟨before, after, hstands, ht⟩ := Source.stands_of_mem_scan h
  have hlocation : d.location =
      if t.kind = .eof then " at end" else " at '" ++ t.lexeme ++ "'" := by
    rw [location, htoken]
  refine ⟨t, before, after, htoken, h, hstands, hline.trans ht, ?_, fun hk => ?_⟩
  · rw [hlocation]
    constructor
    · intro heq
      by_contra hk
      rw [if_neg hk, ← String.toList_inj] at heq
      simp at heq
    · intro hk
      rw [if_pos hk]
  · rw [hlocation, if_neg hk]

namespace Session

-- The session that texts lead to which run one after the other.
def after (clock : Nat → Float) (steps : List (Nat × String)) : Session :=
  steps.foldl (fun session step => (session.run step.1 step.2).2) (.new clock)

-- Whatever texts run, values hold the tokens of accepted texts only.
theorem obeys_after {P : Token → Prop} {steps : List (Nat × String)}
    (hP : ∀ step ∈ steps, Accepted step.2 → ∀ t ∈ (Source.scan step.2).tokens, P t)
    {session : Session} (h : session.state.heap.All (Value.Obeys (.textual P))) :
    (steps.foldl (fun session step => (session.run step.1 step.2).2)
      session).state.heap.All (Value.Obeys (.textual P)) := by
  induction steps generalizing session with
  | nil => exact h
  | cons step steps ih =>
    obtain ⟨hfirst, hrest⟩ := List.forall_mem_cons.1 hP
    exact ih hrest (obeys_run h step.1 fun hsource t ht _ => hfirst hsource t ht).2

-- A diagnostic about the grammar points into its own text. One about a program that runs points into
-- that text or into an accepted one before it, since functions outlive the text in which they stand.
-- With no text before it, as in a script, there is only the text itself.
theorem diagnostics_point_into_sources (clock : Nat → Float) (earlier : List (Nat × String))
    (fuel : Nat) (source : String) :
    ∀ d ∈ ((after clock earlier).run fuel source).1.diagnostics,
      d.stage = .scanning ∧ d.token = none ∨
      d.stage = .parsing ∧ d.PointsInto source ∨
      d.stage = .running ∧ ∃ origin ∈ source :: earlier.map Prod.snd,
        Accepted origin ∧ d.PointsInto origin := by
  intro d hd
  by_cases hsource : Accepted source
  · let P (t : Token) : Prop := ∃ origin ∈ source :: earlier.map Prod.snd,
      Accepted origin ∧ t ∈ (Source.scan origin).tokens
    have hearlier : ∀ step ∈ earlier, Accepted step.2 → ∀ t ∈ (Source.scan step.2).tokens, P t :=
      fun step hstep haccepted t ht =>
        ⟨step.2, List.mem_cons_of_mem _ (List.mem_map_of_mem hstep), haccepted, ht⟩
    have hheap : (after clock earlier).state.heap.All (Value.Obeys (.textual P)) :=
      obeys_after hearlier (Run.all_initial trivial clock)
    obtain ⟨hallowed, -⟩ := obeys_run hheap fuel fun _ t ht _ =>
      (⟨source, List.mem_cons_self, hsource, ht⟩ : P t)
    rw [run_of_accepted hsource] at hd hallowed
    cases hending : (Run.run fuel (statementsOf source) (after clock earlier).state).1 with
    | failed e =>
      dsimp only at hd
      rw [hending] at hd
      obtain rfl := List.mem_singleton.1 hd
      obtain ⟨origin, horigin, haccepted, ht⟩ := hallowed _ (congrArg some hending)
      exact .inr (.inr ⟨rfl, origin, horigin, haccepted,
        Diagnostic.pointsInto_of_mem rfl rfl ht⟩)
    | _ =>
      dsimp only at hd
      rw [hending] at hd
      cases hd
  · rw [run_of_rejected hsource] at hd
    obtain hd | hd := List.mem_append.1 hd
    · obtain ⟨e, -, rfl⟩ := List.mem_map.1 hd
      exact .inl ⟨rfl, rfl⟩
    · obtain ⟨e, he, rfl⟩ := List.mem_map.1 hd
      have htoken := Syntax.token_mem_of_error (Source.exists_eof_mem_scan source) he
      exact .inr (.inl ⟨rfl, Diagnostic.pointsInto_of_mem rfl rfl htoken⟩)

-- A function of an earlier text fails when a later one calls it.
theorem diagnostics_point_into_sources_earlier :
    let earlier := "fun f() \x7b\nprint x;\n\x7d"
    let d : Diagnostic :=
      ⟨.running, 2, some ⟨.identifier, "x", .nil, 2⟩, "Undefined variable 'x'."⟩
    d ∈ ((after (fun _ => 0) [(3, earlier)]).run 3 "f();").1.diagnostics ∧
      ∃ origin ∈ ["f();", earlier], Accepted origin ∧ d.PointsInto origin := by
  intro earlier d
  have hd : d ∈ ((after (fun _ => 0) [(3, earlier)]).run 3 "f();").1.diagnostics := by
    decide +kernel
  refine ⟨hd, ?_⟩
  obtain ⟨hstage, -⟩ | ⟨hstage, -⟩ | ⟨-, horigin⟩ :=
    diagnostics_point_into_sources (fun _ => 0) [(3, earlier)] 3 "f();" d hd
  · cases hstage
  · cases hstage
  · exact horigin

end Session

end Lox
