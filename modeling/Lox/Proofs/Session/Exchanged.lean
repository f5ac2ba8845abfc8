import Lox.Proofs.Run.Exchanged
import Lox.Proofs.Session.History
import Lox.Proofs.Session.Reachable
import Mathlib.Data.List.Nodup

namespace Lox

theorem Bindings.find?_eq_some_iff {name : String} {value : Value} {bindings : Bindings}
    (h : (bindings.map Prod.fst).Nodup) :
    find? name bindings = some value ↔ (name, value) ∈ bindings := by
  induction bindings with
  | nil => simp [find?]
  | cons binding rest ih =>
    obtain ⟨key, old⟩ := binding
    obtain ⟨hkey, hrest⟩ := List.nodup_cons.1 h
    rw [find?, List.mem_cons]
    by_cases hname : key = name
    · subst hname
      have hnot : (key, value) ∉ rest := fun hmem => hkey (List.mem_map.2 ⟨_, hmem, rfl⟩)
      simp [hnot, eq_comm]
    · simp [hname, Ne.symm hname, ih hrest]

-- Names in the order of their characters are in one order only if none is there twice.
theorem mergeSort_eq_of_perm {α : Type} {xs ys : List (String × α)} (hperm : xs.Perm ys)
    (h : (ys.map Prod.fst).Nodup) :
    xs.mergeSort (fun a b => a.1 ≤ b.1) = ys.mergeSort fun a b => a.1 ≤ b.1 := by
  have hsorted (zs : List (String × α)) :
      (zs.mergeSort fun a b => a.1 ≤ b.1).Pairwise fun a b => decide (a.1 ≤ b.1) = true := by
    refine List.pairwise_mergeSort (fun a b c hab hbc => ?_) (fun a b => ?_) zs
    · exact decide_eq_true (String.le_trans (of_decide_eq_true hab) (of_decide_eq_true hbc))
    · simpa using String.le_total a.1 b.1
  refine List.Perm.eq_of_pairwise (fun a b ha hb hab hba => ?_) (hsorted xs) (hsorted ys)
    (((List.mergeSort_perm xs _).trans hperm).trans (List.mergeSort_perm ys _).symm)
  refine List.inj_on_of_nodup_map h ?_ (List.mem_mergeSort.1 hb) ?_
  · exact hperm.mem_iff.1 (List.mem_mergeSort.1 ha)
  · exact String.le_antisymm (of_decide_eq_true hab) (of_decide_eq_true hba)

namespace Run

-- What can be seen of a name.
def shownBinding (binding : String × Value) : String × Except Undefined String :=
  (binding.1, binding.2.display)

-- What can be seen of the global names.
def State.shown (s : State) : List (String × Except Undefined String) :=
  s.globals.map shownBinding

theorem keys_shown (bindings : Bindings) :
    (bindings.map shownBinding).map Prod.fst = bindings.map Prod.fst := by
  rw [List.map_map]
  rfl

theorem mem_shown_iff {bindings : Bindings} (h : (bindings.map Prod.fst).Nodup) (name : String)
    (text : Except Undefined String) :
    (name, text) ∈ bindings.map shownBinding ↔
      (bindings.find? name).map Value.display = some text := by
  simp only [List.mem_map, Option.map_eq_some_iff, Bindings.find?_eq_some_iff h]
  constructor
  · rintro ⟨⟨key, value⟩, hmem, heq⟩
    obtain ⟨rfl, rfl⟩ := Prod.mk.inj heq
    exact ⟨value, hmem, rfl⟩
  · rintro ⟨value, hmem, rfl⟩
    exact ⟨_, hmem, rfl⟩

-- Names that were bound in another order are the same names.
theorem State.Exchanged.shown_eq {r : Renaming} {s t : State} (h : s.Exchanged r t) :
    s.shown = t.shown := by
  have hscope := h.heap.scopes globalScope
  rw [shown, shown, globals, globals]
  generalize s.heap[globalScope]? = x, t.heap[globalScope]? = y at hscope
  cases hscope with
  | none => rfl
  | @some x y hscope =>
    have hsort (bindings : Bindings) : (bindings.mergeSort fun a b => a.1 ≤ b.1).map shownBinding =
        (bindings.map shownBinding).mergeSort fun a b => a.1 ≤ b.1 :=
      List.map_mergeSort fun _ _ _ _ => rfl
    have honce : ((x.bindings.map shownBinding).map Prod.fst).Nodup := by
      rw [keys_shown]
      exact hscope.once
    have honce' : ((y.bindings.map shownBinding).map Prod.fst).Nodup := by
      rw [keys_shown]
      exact hscope.once'
    dsimp only
    rw [hsort, hsort]
    refine mergeSort_eq_of_perm ?_ honce'
    rw [List.perm_ext_iff_of_nodup (.of_map _ honce) (.of_map _ honce')]
    rintro ⟨name, text⟩
    rw [mem_shown_iff hscope.once, mem_shown_iff hscope.once']
    have hvalue : Option.Rel (Value.Exchanged r) (x.bindings.find? name) (y.bindings.find? name) :=
      hscope.values name
    generalize x.bindings.find? name = v, y.bindings.find? name = w at hvalue
    cases hvalue with
    | none => rfl
    | some hvalue => rw [Option.map_some, Option.map_some, hvalue.twins.display]

theorem run_exchanged {r : Renaming} {s t : State} (h : s.Exchanged r t)
    {program program' : List Stmt} (hprogram : Stmt.AllExchanged program program') (fuel : Nat) :
    (run fuel program s).1 = (run fuel program' t).1 ∧
      ∃ r', (run fuel program s).2.Exchanged r' (run fuel program' t).2 := by
  have hstarted : s.started.Exchanged r t.started := by
    obtain ⟨heap, rfl, hheap⟩ := h.split
    exact ⟨hheap, rfl, h.size, h.fresh⟩
  obtain ⟨r', -, hstate, hanswer⟩ := matched_execTop fuel hstarted hprogram
  rw [run_eq, run_eq]
  refine ⟨?_, r', hstate⟩
  generalize (execTop fuel program s.started).1 = a,
    (execTop fuel program' t.started).1 = b at hanswer
  cases hanswer <;> rfl

theorem State.initial_exchanged (clock : Nat → Float) :
    (State.initial clock).Exchanged ⟨0, Equiv.refl Nat⟩ (State.initial clock) := by
  have hempty :
      Heap.Exchanged ⟨0, Equiv.refl Nat⟩ (Heap.create #[] none) (Heap.create #[] none) := by
    refine ⟨rfl, fun id => ?_⟩
    rw [Heap.getElem?_create]
    split
    · exact .some ⟨rfl, fun _ => .none, List.nodup_nil, List.nodup_nil⟩
    · exact .none
  have hclock : Value.Exchanged ⟨0, Equiv.refl Nat⟩ (.primitive .clock) (.primitive .clock) :=
    .plain fun _ h => by cases h
  exact ⟨hempty.define globalScope Primitive.clock.name hclock, rfl, rfl, fun _ _ => rfl⟩

end Run

-- The same program, or programs that differ only in the order of neighbouring function
-- declarations.
inductive Given.Exchanged : Given → Given → Prop
  | same (given : Given) : Exchanged given given
  | text {source source' : String} (h : Accepted source) (h' : Accepted source')
    (hs : Stmt.AllExchanged (statementsOf source) (statementsOf source')) :
    Exchanged (.text source) (.text source')
  | trees {program program' : List Stmt} (h : Stmt.AllExchanged program program') :
    Exchanged (.trees program) (.trees program')

namespace Session

-- Steps between which nobody can tell a difference. They print the same, and tell and end with the
-- same errors.
structure Indistinct (r r' : Step × Session) : Prop where
  step : r.1 = r'.1
  hadError : r.2.hadError = r'.2.hadError
  hadRuntimeError : r.2.hadRuntimeError = r'.2.hadRuntimeError
  globals : r.2.state.shown = r'.2.state.shown

-- Sessions in which different functions may have been declared first.
structure Exchanged (session session' : Session) : Prop where
  state : ∃ r, session.state.Exchanged r session'.state
  hadError : session.hadError = session'.hadError
  hadRuntimeError : session.hadRuntimeError = session'.hadRuntimeError

theorem indistinct_of_ended {ending ending' : Run.Ending} {s s' : Run.State}
    {rejected failed : Bool} {r : Renaming} (hending : ending = ending') (h : s.Exchanged r s') :
    Indistinct (⟨s.printed, diagnosticsOf ending, some ending⟩, ⟨s, rejected, failed⟩)
        (⟨s'.printed, diagnosticsOf ending', some ending'⟩, ⟨s', rejected, failed⟩) ∧
      Exchanged ⟨s, rejected, failed⟩ ⟨s', rejected, failed⟩ := by
  subst hending
  have hshown := h.shown_eq
  obtain ⟨heap, rfl, -⟩ := h.split
  exact ⟨⟨rfl, rfl, rfl, hshown⟩, ⟨r, h⟩, rfl, rfl⟩

-- Both texts run, or none of them does.
theorem Exchanged.run {session session' : Session} (h : session.Exchanged session') (fuel : Nat)
    {source source' : String} (haccepted : Accepted source ↔ Accepted source')
    (hrejected : ¬ Accepted source → rejectionsOf source = rejectionsOf source')
    (hs : Stmt.AllExchanged (statementsOf source) (statementsOf source')) :
    Indistinct (session.run fuel source) (session'.run fuel source') ∧
      (session.run fuel source).2.Exchanged (session'.run fuel source').2 := by
  obtain ⟨s, rejected, failed⟩ := session
  obtain ⟨s', rejected', failed'⟩ := session'
  obtain ⟨⟨r, hstate⟩, rfl, rfl⟩ := h
  by_cases hsource : Accepted source
  · obtain ⟨hending, r', hstate'⟩ := Run.run_exchanged hstate hs fuel
    rw [run_of_accepted hsource, run_of_accepted (haccepted.1 hsource)]
    dsimp only
    rw [← hending]
    exact indistinct_of_ended rfl hstate'
  · rw [run_of_rejected hsource, run_of_rejected (haccepted.not.1 hsource), hrejected hsource]
    exact ⟨⟨rfl, rfl, rfl, hstate.shown_eq⟩, ⟨r, hstate⟩, rfl, rfl⟩

theorem Exchanged.runTree {session session' : Session} (h : session.Exchanged session') (fuel : Nat)
    {program program' : List Stmt} (hs : Stmt.AllExchanged program program') :
    Indistinct (session.runTree fuel program) (session'.runTree fuel program') ∧
      (session.runTree fuel program).2.Exchanged (session'.runTree fuel program').2 := by
  obtain ⟨s, rejected, failed⟩ := session
  obtain ⟨s', rejected', failed'⟩ := session'
  obtain ⟨⟨r, hstate⟩, rfl, rfl⟩ := h
  obtain ⟨hending, r', hstate'⟩ := Run.run_exchanged hstate hs fuel
  exact indistinct_of_ended hending hstate'

-- One step keeps sessions such, and nobody can tell which of them it is from.
theorem Exchanged.take {session session' : Session} (h : session.Exchanged session') (fuel : Nat)
    {given given' : Given} (hgiven : given.Exchanged given') :
    Indistinct (session.take fuel given) (session'.take fuel given') ∧
      (session.take fuel given).2.Exchanged (session'.take fuel given').2 := by
  cases hgiven with
  | same given =>
    cases given with
    | text source => exact h.run fuel .rfl (fun _ => rfl) (.refl _)
    | trees program => exact h.runTree fuel (.refl _)
  | text haccepted haccepted' hs =>
    exact h.run fuel (iff_of_true haccepted haccepted') (fun hn => absurd haccepted hn) hs
  | trees hs => exact h.runTree fuel hs

theorem Exchanged.history {session session' : Session} (h : session.Exchanged session')
    {steps steps' : List (Nat × Given)}
    (hsteps : List.Forall₂ (fun step step' => step.1 = step'.1 ∧ step.2.Exchanged step'.2)
      steps steps') :
    List.Forall₂ Indistinct (session.history steps) (session'.history steps') := by
  induction hsteps generalizing session session' with
  | nil => exact .nil
  | @cons step step' others others' hstep _ ih =>
    obtain ⟨fuel, given⟩ := step
    obtain ⟨fuel', given'⟩ := step'
    obtain ⟨rfl, hgiven⟩ := hstep
    obtain ⟨hsame, hnext⟩ := h.take fuel hgiven
    exact .cons hsame (ih hnext)

-- Neighbouring functions with different names can be declared in either order, wherever in a program
-- they stand and whatever was run before it. Nobody can tell from any step of a session in which
-- order they were.
theorem history_of_exchanged (clock : Nat → Float) (steps steps' : List (Nat × Given))
    (hsteps : List.Forall₂ (fun step step' => step.1 = step'.1 ∧ step.2.Exchanged step'.2)
      steps steps') :
    List.Forall₂ Indistinct ((new clock).history steps) ((new clock).history steps') :=
  Exchanged.history ⟨⟨_, Run.State.initial_exchanged clock⟩, rfl, rfl⟩ hsteps

-- A function that returns another one, in tokens and as a tree.
def returningTokens (name other : String) : List Token :=
  [⟨.funKw, "fun", .nil, 1⟩, ⟨.identifier, name, .nil, 1⟩, ⟨.leftParen, "(", .nil, 1⟩,
    ⟨.rightParen, ")", .nil, 1⟩, ⟨.leftBrace, "\x7b", .nil, 1⟩, ⟨.returnKw, "return", .nil, 1⟩,
    ⟨.identifier, other, .nil, 1⟩, ⟨.semicolon, ";", .nil, 1⟩, ⟨.rightBrace, "\x7d", .nil, 1⟩]

def returning (name other : String) : Stmt :=
  .function ⟨.identifier, name, .nil, 1⟩ []
    [.returnFrom ⟨.returnKw, "return", .nil, 1⟩
      (some (.variable ⟨.identifier, other, .nil, 1⟩))]

theorem parse_returning (name other : String) :
    Syntax.parse (returningTokens name other ++ returningTokens other name ++
        [⟨.eof, "", .nil, 1⟩]) = ⟨[returning name other, returning other name], []⟩ := by
  cbv

-- Two functions that know each other, and later a program that compares them and ends in an error.
theorem history_of_exchanged_mutual :
    List.Forall₂ Indistinct
      ((new fun _ => 0).history
        [(2, .text "fun f() \x7b return g; \x7d fun g() \x7b return f; \x7d"),
          (2, .text "print f()() == f; x;")])
      ((new fun _ => 0).history
        [(2, .text "fun g() \x7b return f; \x7d fun f() \x7b return g; \x7d"),
          (2, .text "print f()() == f; x;")]) := by
  have hscan : Source.scan "fun f() \x7b return g; \x7d fun g() \x7b return f; \x7d" =
      ⟨returningTokens "f" "g" ++ returningTokens "g" "f" ++ [⟨.eof, "", .nil, 1⟩], []⟩ := by
    decide +kernel
  have hscan' : Source.scan "fun g() \x7b return f; \x7d fun f() \x7b return g; \x7d" =
      ⟨returningTokens "g" "f" ++ returningTokens "f" "g" ++ [⟨.eof, "", .nil, 1⟩], []⟩ := by
    decide +kernel
  refine history_of_exchanged _ _ _ (.cons ⟨rfl, .text ?_ ?_ ?_⟩ (.cons ⟨rfl, .same _⟩ .nil))
  · exact ⟨by rw [hscan], by rw [hscan, parse_returning]⟩
  · exact ⟨by rw [hscan'], by rw [hscan', parse_returning]⟩
  · rw [statementsOf, statementsOf, hscan, hscan', parse_returning, parse_returning]
    exact .swap (by decide) (.refl _) (.refl _) .nil

-- What both print and how both end.
example : ((new fun _ => 0).history
    [(2, .text "fun f() \x7b return g; \x7d fun g() \x7b return f; \x7d"),
      (2, .text "print f()() == f; x;")]).map (fun r => (r.1.printed, r.2.hadRuntimeError)) =
    [("", false), ("true\n", true)] := by
  decide +kernel

end Session

end Lox
