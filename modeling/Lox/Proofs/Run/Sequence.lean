import Lox.Proofs.Run.Follows
import Lox.Proofs.Run.Restores

namespace Lox.Run

open Eval

-- Programs that run one after the other, up to the first that does not run to its end: how that
-- one ended, the state it left, and all that was printed.
def runEach (fuel : Nat) : List (List Stmt) → State → Ending × State × String
  | [], s => (.completed, s, "")
  | program :: programs, s =>
    match run fuel program s with
    | (.completed, t) =>
      let (ending, last, text) := runEach fuel programs t
      (ending, last, t.printed ++ text)
    | (ending, t) => (ending, t, t.printed)

theorem execTop_append (fuel : Nat) (ss ts : List Stmt) :
    execTop fuel (ss ++ ts) = execTop fuel ss >>= fun _ => execTop fuel ts := by
  induction ss with
  | nil => rfl
  | cons s ss ih =>
    rw [List.cons_append, execTop, execTop, bind_assoc]
    congr 1
    funext c
    cases c with
    | normal => exact ih
    | broke => rfl
    | returned value => rfl

-- What is printed before a program starts changes nothing but what is printed.
theorem execTop_printed (fuel : Nat) (program : List Stmt) {s : State} (hl : s.loopDepth = 0)
    (hf : s.functionDepth = 0) :
    execTop fuel program s =
      ((execTop fuel program s.started).1,
        { (execTop fuel program s.started).2 with
          printed := s.printed ++ (execTop fuel program s.started).2.printed }) := by
  have hs : s = s.started.moved Token.line s.printed := by
    cases s
    simp only at hl hf
    simp [State.moved, State.relined, State.started, hl, hf]
  have hfollows : Follows Token.line s.printed id (execTop fuel program) _ :=
    follows_execTop fuel program
  have h := hfollows s.started
  rw [← hs, Stmt.allRelined_line] at h
  rw [h]
  rcases execTop fuel program s.started with ⟨(e | fault | _) | _, t⟩ <;>
    simp [relinedAnswer, Halt.relined, RuntimeError.relined, State.moved, State.relined]

-- A program ends outside of all loops and functions, as it started.
theorem execTop_started (fuel : Nat) (program : List Stmt) (s : State) :
    (execTop fuel program s.started).2.loopDepth = 0 ∧
      (execTop fuel program s.started).2.functionDepth = 0 := by
  have hplace := law_restores.execTop fuel program s.started
  exact ⟨congrArg Place.loopDepth hplace, congrArg Place.functionDepth hplace⟩

-- Programs that run one after the other do what they do as one.
theorem run_flatten (fuel : Nat) (programs : List (List Stmt)) (s : State) :
    run fuel programs.flatten s =
      ((runEach fuel programs s).1, { (runEach fuel programs s).2.1.started with
        printed := (runEach fuel programs s).2.2 }) := by
  induction programs generalizing s with
  | nil => rfl
  | cons program programs ih =>
    obtain ⟨hl, hf⟩ := execTop_started fuel program s
    rw [List.flatten_cons, run_eq, execTop_append, run_bind, runEach, run_eq]
    cases hrun : execTop fuel program s.started with
    | mk answer t =>
      rw [hrun] at hl hf
      cases answer with
      | error h =>
        have ht : t = { t.started with printed := t.printed } := by
          cases t
          simp only at hl hf
          simp [State.started, hl, hf]
        cases h with
        | error e => simp [Ending.of, ← ht]
        | fault f => simp [Ending.of, ← ht]
        | exhausted => simp [Ending.of, ← ht]
      | ok _ =>
        have hrest := ih t
        rw [run_eq] at hrest
        obtain ⟨hending, hlast⟩ := Prod.mk.inj hrest
        dsimp only
        rw [execTop_printed fuel programs.flatten hl hf, hlast, hending]
        rfl

-- The same programs on other lines.
theorem runEach_relined (f : Token → Int) (fuel : Nat) (programs : List (List Stmt)) (s : State) :
    runEach fuel (programs.map (Stmt.allRelined f)) (s.relined f) =
      ((runEach fuel programs s).1.relined f, (runEach fuel programs s).2.1.relined f,
        (runEach fuel programs s).2.2) := by
  induction programs generalizing s with
  | nil => rfl
  | cons program programs ih =>
    rw [List.map_cons, runEach, runEach, run_relined]
    rcases run fuel program s with ⟨ending, t⟩
    cases ending with
    | completed =>
      dsimp only [Ending.relined]
      rw [ih]
      rfl
    | _ => rfl

end Lox.Run
