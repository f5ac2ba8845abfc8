import Lox.Proofs.Run.Safe
import Lox.Proofs.Session.Reachable
import Lox.Proofs.Syntax.Parsed
import Lox.Proofs.Syntax.Textual

namespace Lox

-- The scanner reads numbers and the text between quotes; it gives no other literals.
theorem Source.textual_literalOf (kind : TokenKind) (text : List Char) :
    (literalOf kind text).Textual := by
  unfold literalOf
  split <;> trivial

theorem Source.textual_of_mem_collect {line : Int} {ps : List Piece} {t : Token}
    (h : t ∈ (collect line ps).tokens) : t.literal.Textual := by
  induction ps generalizing line with
  | nil =>
    obtain rfl := List.mem_singleton.1 h
    trivial
  | cons p ps ih =>
    rw [collect] at h
    obtain h | h := List.mem_append.1 h
    · unfold Piece.token? at h
      split at h
      · obtain rfl : t = _ := by simpa using h
        exact textual_literalOf _ _
      · simp at h
    · exact ih h

-- The statements of an accepted text hold nothing that no program text gives, and no tokens but
-- those of the text.
theorem Accepted.obeys {P : Token → Prop} {source : String} (h : Accepted source)
    (hp : ∀ t ∈ (Source.scan source).tokens, t.kind ≠ .string → P t) :
    Stmt.AllObey (.textual P) (statementsOf source) := by
  obtain ⟨body, hbody, htree⟩ := Syntax.parse_sound h.parse
  rw [statementsOf, htree]
  refine Stmt.AllMadeOf.obey (hbody.madeOf fun t ht => ?_)
  have hscan : t ∈ (Source.scan source).tokens := List.takeWhile_subset _ ht
  exact ⟨hp t hscan, fun _ => Source.textual_of_mem_collect hscan⟩

namespace Session

-- A text that is run adds its own tokens to what values hold and errors point at.
theorem obeys_run {P : Token → Prop} {session : Session}
    (h : session.state.heap.All (Value.Obeys (.textual P))) (fuel : Nat) {source : String}
    (hp : Accepted source → ∀ t ∈ (Source.scan source).tokens, t.kind ≠ .string → P t) :
    (∀ ending, (session.run fuel source).1.ending = some ending → ending.Allowed (.textual P)) ∧
      (session.run fuel source).2.state.heap.All (Value.Obeys (.textual P)) := by
  by_cases hsource : Accepted source
  · rw [run_of_accepted hsource]
    obtain ⟨hended, hheap⟩ := Run.run_allowed fuel (hsource.obeys (hp hsource)) h
    refine ⟨fun ending hending => ?_, hheap⟩
    obtain rfl := Option.some.inj hending
    exact hended
  · rw [run_of_rejected hsource]
    exact ⟨fun ending hending => (by cases hending), h⟩

-- All values of a session are such as program texts give.
def Textual (session : Session) : Prop :=
  session.state.heap.All (Value.Obeys (.textual fun _ => True))

theorem textual_new (clock : Nat → Float) : (new clock).Textual :=
  Run.all_initial trivial clock

theorem Textual.run {session : Session} (h : session.Textual) (fuel : Nat) (source : String) :
    (∀ f, (session.run fuel source).1.ending ≠ some (.faulted f)) ∧
      (session.run fuel source).2.Textual := by
  have htrivial : Accepted source → ∀ t ∈ (Source.scan source).tokens, t.kind ≠ .string → True :=
    fun _ _ _ _ => trivial
  obtain ⟨hallowed, hheap⟩ := obeys_run h fuel htrivial
  refine ⟨fun f hf => ?_, hheap⟩
  have hended := hallowed _ hf
  cases f with
  | displayed u => exact hended
  | unknownBinary name =>
    obtain ⟨t, ⟨operation, hsome⟩, hnone, -⟩ := hended
    rw [hnone] at hsome
    cases hsome
  | unknownUnary name =>
    obtain ⟨t, ⟨operation, hsome⟩, hnone, -⟩ := hended
    rw [hnone] at hsome
    cases hsome
  | reachedTop signal => exact hended
  | escapedBody signal name => exact hended

-- What keeps a text from finishing is nothing but the calls and rounds that it may use.
theorem Textual.finished_iff {session : Session} (h : session.Textual) (fuel : Nat)
    (source : String) : (session.run fuel source).1.finished = true ↔
      (session.run fuel source).1.ending ≠ some .exhausted := by
  have hfaulted := (h.run fuel source).1
  rw [Step.finished]
  cases hending : (session.run fuel source).1.ending with
  | none => simp
  | some ending =>
    cases ending with
    | completed => simp
    | failed e => simp
    | faulted f => exact absurd hending (hfaulted f)
    | exhausted => simp

theorem Reachable.textual {clock : Nat → Float} {session : Session}
    (h : Reachable clock session) : session.Textual := by
  induction h with
  | new => exact textual_new clock
  | run h fuel source ih => exact (ih.run fuel source).2

-- Whatever program texts came before, no program text ends with a fault that only other trees
-- can bring about.
theorem Reachable.never_faulted {clock : Nat → Float} {session : Session}
    (h : Reachable clock session) (fuel : Nat) (source : String) (f : Run.InternalFault) :
    (session.run fuel source).1.ending ≠ some (.faulted f) :=
  (h.textual.run fuel source).1 f

-- A break in a function that is called from inside a loop of a later text is an error of the
-- program and no such fault.
theorem never_faulted_break :
    (((new fun _ => 0).run 3 "fun f() { break; }").2.run 3 "while (true) f();").1.ending ≠
      some (.faulted (.escapedBody .breakLoop "f")) :=
  (Reachable.run (.new : Reachable (fun _ => 0) _) 3 "fun f() { break; }").never_faulted 3
    "while (true) f();" (.escapedBody .breakLoop "f")

end Session

end Lox
