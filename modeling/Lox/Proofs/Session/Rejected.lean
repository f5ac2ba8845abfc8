import Lox.Proofs.Session.Pointed
import Mathlib.Data.List.Induction

namespace Lox

instance (source : String) : Decidable (Accepted source) :=
  decidable_of_iff (rejectionsOf source = []) rejectionsOf_eq_nil_iff

namespace Session

-- A text among the steps had an error in its tokens or its grammar.
def SomeRejected (steps : List (Nat × String)) : Prop :=
  ∃ step ∈ steps, ¬ Accepted step.2

-- The last accepted one of the steps ended with an error.
def FailedLast (clock : Nat → Float) (steps : List (Nat × String)) : Prop :=
  ∃ earlier fuel source later e, steps = earlier ++ (fuel, source) :: later ∧ Accepted source ∧
    (∀ step ∈ later, ¬ Accepted step.2) ∧
    ((after clock earlier).run fuel source).1.ending = some (.failed e)

-- No step needs more calls and rounds than it may use.
def Ends (clock : Nat → Float) (steps : List (Nat × String)) : Prop :=
  ∀ earlier fuel source later, steps = earlier ++ (fuel, source) :: later →
    ((after clock earlier).run fuel source).1.ending ≠ some .exhausted

-- The steps without those that are rejected.
def kept (steps : List (Nat × String)) : List (Nat × String) :=
  steps.filter fun step => Accepted step.2

variable {clock : Nat → Float} {steps : List (Nat × String)} {step : Nat × String}

theorem after_concat (clock : Nat → Float) (steps : List (Nat × String)) (step : Nat × String) :
    after clock (steps ++ [step]) = ((after clock steps).run step.1 step.2).2 := by
  simp [after]

-- What a step does and leaves depends on the state of the session, and not on its flags.
theorem run_congr {session session' : Session} (h : session.state = session'.state) (fuel : Nat)
    (source : String) : (session.run fuel source).1 = (session'.run fuel source).1 ∧
      (session.run fuel source).2.state = (session'.run fuel source).2.state := by
  by_cases hsource : Accepted source
  · rw [run_of_accepted hsource, run_of_accepted hsource, h]
    exact ⟨rfl, rfl⟩
  · rw [run_of_rejected hsource, run_of_rejected hsource]
    exact ⟨rfl, h⟩

theorem reachable_after (clock : Nat → Float) (steps : List (Nat × String)) :
    Reachable clock (after clock steps) := by
  induction steps using List.reverseRecOn with
  | nil => exact .new
  | append_singleton steps step ih =>
    rw [after_concat]
    exact ih.run step.1 step.2

-- The flag for rejected texts is never taken back.
theorem hadError_after (clock : Nat → Float) (steps : List (Nat × String)) :
    (after clock steps).hadError ↔ SomeRejected steps := by
  induction steps using List.reverseRecOn with
  | nil => simp [after, new, SomeRejected]
  | append_singleton steps step ih =>
    have hsome : SomeRejected (steps ++ [step]) ↔ SomeRejected steps ∨ ¬ Accepted step.2 := by
      simp only [SomeRejected, List.mem_append, List.mem_singleton, or_and_right, exists_or,
        exists_eq_left]
    rw [after_concat, hsome]
    by_cases hstep : Accepted step.2
    · rw [run_of_accepted hstep, ih]
      exact ⟨.inl, fun h => h.resolve_right (not_not.2 hstep)⟩
    · rw [run_of_rejected hstep]
      exact ⟨fun _ => .inr hstep, fun _ => rfl⟩

-- A step among some and one more is that one, or it is among the others.
theorem concat_cases {earlier later : List (Nat × String)} {other : Nat × String}
    (h : steps ++ [step] = earlier ++ other :: later) :
    (steps = earlier ∧ step = other ∧ later = []) ∨
      ∃ between, steps = earlier ++ other :: between ∧ later = between ++ [step] := by
  obtain rfl | ⟨between, last, rfl⟩ := later.eq_nil_or_concat
  · obtain ⟨rfl, hlast⟩ := List.append_inj' h rfl
    exact .inl ⟨rfl, List.singleton_inj.1 hlast, rfl⟩
  · rw [List.concat_eq_append, ← List.cons_append, ← List.append_assoc] at h
    obtain ⟨rfl, hlast⟩ := List.append_inj' h rfl
    obtain rfl := List.singleton_inj.1 hlast
    exact .inr ⟨between, rfl, List.concat_eq_append⟩

theorem ends_nil (clock : Nat → Float) : Ends clock [] := by
  intro earlier fuel source later heq
  simp at heq

theorem Ends.of_append {others : List (Nat × String)} (h : Ends clock (steps ++ others)) :
    Ends clock steps :=
  fun earlier fuel source later heq => h earlier fuel source (later ++ others) (by simp [heq])

theorem ends_concat : Ends clock (steps ++ [step]) ↔
    Ends clock steps ∧ ((after clock steps).run step.1 step.2).1.ending ≠ some .exhausted := by
  constructor
  · intro h
    exact ⟨h.of_append, h steps step.1 step.2 [] rfl⟩
  · rintro ⟨h, hstep⟩ earlier fuel source later heq
    obtain ⟨rfl, rfl, rfl⟩ | ⟨between, rfl, rfl⟩ := concat_cases heq
    · exact hstep
    · exact h earlier fuel source between rfl

theorem failedLast_nil (clock : Nat → Float) : ¬ FailedLast clock [] := by
  rintro ⟨earlier, fuel, source, later, e, heq, -⟩
  simp at heq

-- A step that is rejected is not the last accepted one, and one that is accepted is.
theorem failedLast_concat_rejected (hstep : ¬ Accepted step.2) :
    FailedLast clock (steps ++ [step]) ↔ FailedLast clock steps := by
  constructor
  · rintro ⟨earlier, fuel, source, later, e, heq, hsource, hlater, hended⟩
    obtain ⟨rfl, rfl, rfl⟩ | ⟨between, rfl, rfl⟩ := concat_cases heq
    · exact absurd hsource hstep
    · exact ⟨earlier, fuel, source, between, e, rfl, hsource,
        fun step hmem => hlater step (by simp [hmem]), hended⟩
  · rintro ⟨earlier, fuel, source, later, e, rfl, hsource, hlater, hended⟩
    refine ⟨earlier, fuel, source, later ++ [step], e, by simp, hsource, fun other hmem => ?_, hended⟩
    obtain hmem | hmem := List.mem_append.1 hmem
    · exact hlater other hmem
    · exact List.mem_singleton.1 hmem ▸ hstep

theorem failedLast_concat_accepted (hstep : Accepted step.2) :
    FailedLast clock (steps ++ [step]) ↔
      ∃ e, ((after clock steps).run step.1 step.2).1.ending = some (.failed e) := by
  constructor
  · rintro ⟨earlier, fuel, source, later, e, heq, hsource, hlater, hended⟩
    obtain ⟨rfl, rfl, rfl⟩ | ⟨between, rfl, rfl⟩ := concat_cases heq
    · exact ⟨e, hended⟩
    · exact absurd hstep (hlater step (by simp))
  · rintro ⟨e, hended⟩
    exact ⟨steps, step.1, step.2, [], e, rfl, hstep, by simp, hended⟩

-- The flag for failed programs is that of the last accepted step.
theorem hadRuntimeError_after (h : Ends clock steps) :
    (after clock steps).hadRuntimeError ↔ FailedLast clock steps := by
  induction steps using List.reverseRecOn with
  | nil =>
    refine ⟨fun hflag => ?_, fun hfailed => absurd hfailed (failedLast_nil clock)⟩
    cases hflag
  | append_singleton steps step ih =>
    obtain ⟨hends, hended⟩ := ends_concat.1 h
    rw [after_concat]
    by_cases hstep : Accepted step.2
    · have hfaulted := ((reachable_after clock steps).textual.run step.1 step.2).1
      rw [failedLast_concat_accepted hstep]
      rw [run_of_accepted hstep] at hfaulted hended ⊢
      dsimp only at hfaulted hended ⊢
      cases hrun : (Run.run step.1 (statementsOf step.2) (after clock steps).state).1 with
      | completed => simp [flagAfter]
      | failed e => simp [flagAfter]
      | faulted f => exact absurd (congrArg some hrun) (hfaulted f)
      | exhausted => exact absurd (congrArg some hrun) hended
    · rw [failedLast_concat_rejected hstep, run_of_rejected hstep]
      exact ih hends

theorem exitCode_eq (session : Session) :
    (session.exitCode = 65 ↔ session.hadError) ∧
      (session.exitCode = 70 ↔ ¬ session.hadError ∧ session.hadRuntimeError) ∧
      (session.exitCode = 0 ↔ ¬ session.hadError ∧ ¬ session.hadRuntimeError) := by
  obtain ⟨state, hadError, hadRuntimeError⟩ := session
  cases hadError <;> cases hadRuntimeError <;> simp [exitCode]

-- A session without its rejected steps comes to the same state.
theorem after_kept (clock : Nat → Float) (steps : List (Nat × String)) :
    (after clock (kept steps)).state = (after clock steps).state ∧
      (after clock (kept steps)).hadRuntimeError = (after clock steps).hadRuntimeError := by
  induction steps using List.reverseRecOn with
  | nil => exact ⟨rfl, rfl⟩
  | append_singleton steps step ih =>
    obtain ⟨hstate, hflag⟩ := ih
    by_cases hstep : Accepted step.2
    · have hkept : kept (steps ++ [step]) = kept steps ++ [step] := by simp [kept, hstep]
      rw [hkept, after_concat, after_concat, run_of_accepted hstep, run_of_accepted hstep, hstate,
        hflag]
      exact ⟨rfl, rfl⟩
    · have hkept : kept (steps ++ [step]) = kept steps := by simp [kept, hstep]
      rw [hkept, after_concat, run_of_rejected hstep]
      exact ⟨hstate, hflag⟩

end Session

end Lox
