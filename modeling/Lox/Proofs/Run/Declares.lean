import Lox.Proofs.Run.ForLoop
import Lox.Proofs.Run.Law
import Lox.Proofs.Value.Names

namespace Lox

-- What the parser reads as a statement, and not as a declaration, holds declarations only in scopes
-- of its own.
theorem Syntax.contained_statement {depth : Nat} {stop : Token} {tokens rest : List Token}
    {tree : Stmt} (hdepth : tokens.length ≤ depth)
    (h : statement depth stop tokens = ⟨some tree, rest, []⟩) : tree.Contained := by
  obtain ⟨w, tail, -, hw, -⟩ := (sound_statement_and_block depth).1 _ _ _ _ hdepth h
  exact hw.contained

namespace Run

open Eval

-- Code that ends in the scope in which it starts, and that binds new names in no scope that was
-- there before, or in that scope only if it is the code's own.
def Declares (own : Prop) {α : Type} (m : Eval α) : Prop :=
  ∀ s, (m s).2.current = s.current ∧ s.heap.Gains (fun id => own ∧ id = s.current) (m s).2.heap

section

variable {own : Prop} {α : Type}

theorem declares_of_heap_eq {m : Eval α} (hcurrent : ∀ s, (m s).2.current = s.current)
    (hheap : ∀ s, (m s).2.heap = s.heap) : Declares own m := by
  intro s
  rw [hheap s]
  exact ⟨hcurrent s, .refl s.heap⟩

theorem evalLaw_declares (own : Prop) : EvalLaw (Declares own) where
  pure _ := declares_of_heap_eq (fun _ => rfl) fun _ => rfl
  bind {_ _ m f} hm hf s := by
    obtain ⟨hcurrent, hgains⟩ := hm s
    rw [run_bind]
    rcases hrun : m s with ⟨_ | a, t⟩ <;> rw [hrun] at hcurrent hgains
    · exact ⟨hcurrent, hgains⟩
    · obtain ⟨hcurrent', hgains'⟩ := hf a t
      refine ⟨hcurrent'.trans hcurrent, hgains.trans (hgains'.restrict fun id _ h => ?_)⟩
      exact ⟨h.1, h.2.trans hcurrent⟩
  fail _ _ _ := declares_of_heap_eq (fun _ => rfl) fun _ => rfl
  fault _ := declares_of_heap_eq (fun _ => rfl) fun _ => rfl
  exhausted := declares_of_heap_eq (fun _ => rfl) fun _ => rfl
  lookup name s := by
    rw [run_lookup]
    cases s.heap.get? s.current name.lexeme <;> exact ⟨rfl, .refl s.heap⟩
  assign name value s := by
    rw [run_assign]
    cases howner : s.heap.owner? name.lexeme s.current with
    | none => exact ⟨rfl, .refl s.heap⟩
    | some owner => exact ⟨rfl, .assign howner value⟩
  readClock := declares_of_heap_eq (fun _ => rfl) fun _ => rfl

theorem declares_checkLoop (keyword : Token) {m : Eval Completion} (hm : Declares own m) :
    Declares own (checkLoop keyword m) := by
  intro s
  rw [checkLoop, run_get_bind]
  split
  · exact ⟨rfl, .refl s.heap⟩
  · exact hm s

theorem declares_checkFunction (keyword : Token) {m : Eval Completion} (hm : Declares own m) :
    Declares own (checkFunction keyword m) := by
  intro s
  rw [checkFunction, run_get_bind]
  split
  · exact ⟨rfl, .refl s.heap⟩
  · exact hm s

theorem declares_inLoop {m : Eval Completion} (hm : Declares own m) : Declares own (inLoop m) :=
  fun s => hm s.looping

theorem declares_print (text : String) : Declares own (print text) :=
  declares_of_heap_eq (fun _ => rfl) fun _ => rfl

-- The scope in which enclosed code may bind names is not one of those that were there before.
theorem declares_enclosed {m : Eval Completion} (hm : Declares True m) :
    Declares own (enclosed m) := by
  intro s
  obtain ⟨-, hgains⟩ := hm s.enclosed
  rw [run_enclosed]
  refine ⟨rfl, ((Heap.Gains.create s.heap (some s.current)).trans hgains).restrict ?_⟩
  rintro id hid ⟨-, rfl⟩
  exact absurd hid (Nat.lt_irrefl _)

theorem gains_bindNames (heap : Heap) (scope : ScopeId) (names : List Token)
    (values : List Value) :
    heap.Gains (fun id => True ∧ id = scope) (bindNames heap scope names values) := by
  induction names generalizing heap values with
  | nil => exact .refl heap
  | cons name names ih =>
    cases values with
    | nil => exact .refl heap
    | cons value values =>
      have hfirst : heap.Gains (fun id => True ∧ id = scope)
          (heap.define scope name.lexeme value) :=
        .define (fun _ _ => .inr ⟨trivial, rfl⟩) value
      exact hfirst.trans (ih _ values)

-- Nor is the scope of a call, in which its parameters are bound.
theorem declares_enter {run : List Stmt → Eval Completion} (f : Function) (arguments : List Value)
    (hm : Declares True (run f.body)) : Declares own (enter run f arguments) := by
  intro s
  obtain ⟨-, hgains⟩ := hm (s.entered f arguments)
  have hcreate : s.heap.Gains (fun id => True ∧ id = s.heap.size)
      (s.heap.create (some f.scope)) := .create s.heap (some f.scope)
  have hbound := hcreate.trans (gains_bindNames _ s.heap.size f.parameters arguments)
  rw [run_enter]
  refine ⟨rfl, (hbound.trans hgains).restrict ?_⟩
  rintro id hid ⟨-, rfl⟩
  exact absurd hid (Nat.lt_irrefl _)

end

-- Statements bind new names where they stand.
theorem law_declares : Law (Declares True) where
  toEvalLaw := evalLaw_declares True
  define _ value _ := ⟨rfl, .define (fun _ _ => .inr ⟨trivial, rfl⟩) value⟩
  newFunction _ _ _ := declares_of_heap_eq (fun _ => rfl) fun _ => rfl
  print := declares_print
  checkLoop := declares_checkLoop
  checkFunction := declares_checkFunction
  inLoop := declares_inLoop
  enclosed := declares_enclosed
  enter := declares_enter

theorem declares_invoke (fuel : Nat) (f : Function) (arguments : List Value) :
    Declares False (invoke fuel f arguments) := by
  cases fuel with
  | zero => exact (evalLaw_declares False).exhausted
  | succ fuel =>
    rw [invoke, callWith_eq]
    refine (evalLaw_declares False).bind (declares_enter f arguments ?_)
      ((evalLaw_declares False).leave f)
    exact law_declares.execAllWith (law_declares.invoke fuel) fuel f.body

-- Expressions bind no new names, whatever they call.
theorem declares_eval (fuel : Nat) (e : Expr) : Declares False (eval fuel e) :=
  (evalLaw_declares False).evalWith (declares_invoke fuel) e

theorem declares_block (fuel : Nat) (body : List Stmt) :
    Declares False (exec fuel (.block body)) :=
  declares_enclosed (law_declares.execAllWith (law_declares.invoke fuel) fuel body)

-- Nor do statements that hold declarations only in blocks and functions.
theorem declares_contained (fuel : Nat) {st : Stmt} (h : st.Contained) :
    Declares False (exec fuel st) := by
  have hlaw := evalLaw_declares False
  match st with
  | .block body => exact declares_block fuel body
  | .breakLoop keyword => exact declares_checkLoop keyword (hlaw.pure _)
  | .expression value => exact hlaw.bind (declares_eval fuel value) fun _ => hlaw.pure _
  | .branch condition yes none =>
    refine hlaw.bind (declares_eval fuel condition) fun v => ?_
    have hyes : yes.Contained := h
    split
    · exact declares_contained fuel hyes
    · exact hlaw.pure _
  | .branch condition yes (some no) =>
    refine hlaw.bind (declares_eval fuel condition) fun v => ?_
    split
    · exact declares_contained fuel h.1
    · exact declares_contained fuel h.2
  | .print value =>
    refine hlaw.bind (declares_eval fuel value) fun v => ?_
    cases v.display with
    | error u => exact hlaw.bind (hlaw.fault _) fun _ => hlaw.pure _
    | ok text => exact hlaw.bind (declares_print text) fun _ => hlaw.pure _
  | .returnFrom keyword none => exact declares_checkFunction keyword (hlaw.pure _)
  | .returnFrom keyword (some value) =>
    exact declares_checkFunction keyword
      (hlaw.bind (declares_eval fuel value) fun _ => hlaw.pure _)
  | .loop condition body =>
    have hbody : body.Contained := h
    exact declares_inLoop (hlaw.iterate (declares_eval fuel condition)
      (declares_contained fuel hbody) fuel)
  | .jump .breakLoop => exact hlaw.pure _
  | .jump .returnNil => exact hlaw.pure _
  | .function name parameters body => exact absurd h not_false
  | .declare name initializer => exact absurd h not_false

-- What code leaves of the names that there were: every scope keeps its place and its names and gets
-- no others, so that the same names can be seen from it.
structure State.Conceals (s t : State) : Prop where
  gains : s.heap.Gains (fun _ => False) t.heap
  seen : ∀ id < s.heap.size, ∀ name,
    (t.heap.get? id name).isSome = (s.heap.get? id name).isSome

theorem Declares.conceals {α : Type} {m : Eval α} (h : Declares False m) (s : State) :
    s.Conceals (m s).2 := by
  have hgains : s.heap.Gains (fun _ => False) (m s).2.heap :=
    (h s).2.restrict fun _ _ himp => himp.1
  exact ⟨hgains, fun _ hid name => hgains.isSome_get?_eq name hid⟩

-- However a statement ends, no scope is moved or loses a name, and only the scope in which it starts
-- can get new ones. Not even that one gets any from an expression, whatever it calls, from a block,
-- and from anything that the parser reads as a statement, loops of all kinds among them: what is
-- declared inside cannot be seen after it.
theorem names_stay_inside (fuel : Nat) (s : State) :
    (∀ st : Stmt, s.heap.Gains (fun id => id = s.current) (exec fuel st s).2.heap) ∧
    (∀ e : Expr, s.Conceals (eval fuel e s).2) ∧
    (∀ body, s.Conceals (exec fuel (.block body) s).2) ∧
    ∀ depth stop tokens rest tree, tokens.length ≤ depth →
      Syntax.statement depth stop tokens = ⟨some tree, rest, []⟩ →
        s.Conceals (exec fuel tree s).2 := by
  refine ⟨fun st => ?_, fun e => (declares_eval fuel e).conceals s,
    fun body => (declares_block fuel body).conceals s, fun depth stop tokens rest tree hdepth h => ?_⟩
  · obtain ⟨-, hgains⟩ := law_declares.exec fuel st s
    exact hgains.restrict fun _ _ himp => himp.2
  · exact (declares_contained fuel (Syntax.contained_statement hdepth h)).conceals s

-- The variable of a loop, `for (var x = true; true; x = nil) if (x) print x; else break;`, is
-- unknown after it.
theorem names_stay_inside_for :
    (exec 3 whileOfBreak (.initial fun _ => 0)).2.printed = "true\n" ∧
      ((exec 3 whileOfBreak (.initial fun _ => 0)).2.heap.get? globalScope "x").isSome = false := by
  have hread : Syntax.statement 23 ⟨.eof, "", .nil, 1⟩
      (⟨.forKw, "for", .nil, 1⟩ :: clausesOfBreak) = ⟨some whileOfBreak, [], []⟩ := rfl
  have hconceals := (names_stay_inside 3 (.initial fun _ => 0)).2.2.2 _ _ _ _ _ (by decide) hread
  refine ⟨by decide +kernel, ?_⟩
  rw [hconceals.seen globalScope Nat.one_pos "x", Heap.isSome_get?, Heap.owner?]
  rfl

end Run

end Lox
