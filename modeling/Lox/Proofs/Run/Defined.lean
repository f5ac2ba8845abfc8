import Lox.Proofs.Run.Moment
import Lox.Proofs.Run.Safe

namespace Lox

-- Trees of any kind, if only no literal in them is undefined.
def Discipline.loose : Discipline where
  token _ := True
  literal l := l.undefined? = none
  binary _ := True
  unary _ := True
  jump := True
  defined u h := by cases h

-- A value that is not undefined and is no function in whose body an undefined literal stands.
def Value.Defined : Value → Prop
  | .undefined _ => False
  | .function f => ∀ l ∈ Stmt.literalsOfAll f.body, l.undefined? = none
  | _ => True

mutual

theorem Expr.obeys_loose_iff {e : Expr} :
    e.Obeys .loose ↔ ∀ l ∈ e.literals, l.undefined? = none := by
  cases e with
  | assign name value =>
    rw [Expr.literals, ← value.obeys_loose_iff]
    exact ⟨fun h => h.2, fun h => ⟨trivial, h⟩⟩
  | binary left operator right =>
    rw [Expr.literals, List.forall_mem_append, ← left.obeys_loose_iff, ← right.obeys_loose_iff]
    exact ⟨fun h => h.2.2, fun h => ⟨trivial, trivial, h⟩⟩
  | call callee paren arguments =>
    rw [Expr.literals, List.forall_mem_append, ← callee.obeys_loose_iff, ← Expr.allObey_loose_iff]
    exact ⟨fun h => h.2, fun h => ⟨trivial, h⟩⟩
  | grouping inner => exact inner.obeys_loose_iff
  | literal value =>
    rw [Expr.literals, List.forall_mem_singleton]
    exact Iff.rfl
  | logical left operator right =>
    rw [Expr.literals, List.forall_mem_append, ← left.obeys_loose_iff, ← right.obeys_loose_iff]
    exact Iff.rfl
  | unary operator operand =>
    rw [Expr.literals, ← operand.obeys_loose_iff]
    exact ⟨fun h => h.2, fun h => ⟨trivial, h⟩⟩
  | «variable» name => exact ⟨fun _ => List.forall_mem_nil _, fun _ => trivial⟩

theorem Expr.allObey_loose_iff {es : List Expr} :
    Expr.AllObey .loose es ↔ ∀ l ∈ Expr.literalsOfAll es, l.undefined? = none := by
  cases es with
  | nil => exact ⟨fun _ => List.forall_mem_nil _, fun _ => trivial⟩
  | cons e es =>
    rw [Expr.literalsOfAll, List.forall_mem_append, ← e.obeys_loose_iff, ← Expr.allObey_loose_iff]
    exact Iff.rfl

end

mutual

theorem Stmt.obeys_loose_iff {s : Stmt} :
    s.Obeys .loose ↔ ∀ l ∈ s.literals, l.undefined? = none := by
  cases s with
  | block body => exact Stmt.allObey_loose_iff
  | expression value => exact value.obeys_loose_iff
  | function name parameters body => exact Stmt.allObey_loose_iff
  | branch condition yes no =>
    cases no with
    | none =>
      rw [Stmt.literals, List.forall_mem_append, ← condition.obeys_loose_iff, ← yes.obeys_loose_iff]
      exact Iff.rfl
    | some no =>
      rw [Stmt.literals, List.forall_mem_append, List.forall_mem_append, and_assoc,
        ← condition.obeys_loose_iff, ← yes.obeys_loose_iff, ← no.obeys_loose_iff]
      exact Iff.rfl
  | print value => exact value.obeys_loose_iff
  | returnFrom keyword value =>
    cases value with
    | none => exact ⟨fun _ => List.forall_mem_nil _, fun _ => trivial⟩
    | some value =>
      rw [Stmt.literals, ← value.obeys_loose_iff]
      exact ⟨fun h => h.2, fun h => ⟨trivial, h⟩⟩
  | declare name initializer =>
    cases initializer with
    | none => exact ⟨fun _ => List.forall_mem_nil _, fun _ => trivial⟩
    | some initializer => exact initializer.obeys_loose_iff
  | loop condition body =>
    rw [Stmt.literals, List.forall_mem_append, ← condition.obeys_loose_iff, ← body.obeys_loose_iff]
    exact Iff.rfl
  | breakLoop _ | jump _ => exact ⟨fun _ => List.forall_mem_nil _, fun _ => trivial⟩

theorem Stmt.allObey_loose_iff {ss : List Stmt} :
    Stmt.AllObey .loose ss ↔ ∀ l ∈ Stmt.literalsOfAll ss, l.undefined? = none := by
  cases ss with
  | nil => exact ⟨fun _ => List.forall_mem_nil _, fun _ => trivial⟩
  | cons s ss =>
    rw [Stmt.literalsOfAll, List.forall_mem_append, ← s.obeys_loose_iff, ← Stmt.allObey_loose_iff]
    exact Iff.rfl

end

theorem Value.obeys_loose_iff {v : Value} : v.Obeys .loose ↔ v.Defined := by
  cases v with
  | function f => exact Stmt.allObey_loose_iff
  | _ => exact Iff.rfl

namespace Run

-- A task that has to do with nothing but what obeys.
def Task.Obeys (d : Discipline) : Task → Prop
  | .expression e => e.Obeys d
  | .arguments es => Expr.AllObey d es
  | .statement st => st.Obeys d
  | .sequence ss => Stmt.AllObey d ss
  | .rounds condition body _ => condition.Obeys d ∧ body.Obeys d
  | .call f vs => (Value.function f).Obeys d ∧ ∀ v ∈ vs, v.Obeys d

structure Moment.Obeys (d : Discipline) (m : Moment) : Prop where
  heap : m.state.heap.All (Value.Obeys d)
  task : m.task.Obeys d

section

variable {d : Discipline} {fuel : Nat} {s t : State}

-- Whatever the depths are, code that obeys keeps what all values obey.
theorem obeys_evaluated (hs : s.heap.All (Value.Obeys d)) {e : Expr} (he : e.Obeys d) {v : Value}
    (h : eval fuel e s = (.ok v, t)) : t.heap.All (Value.Obeys d) ∧ v.Obeys d := by
  obtain ⟨hended, hv⟩ := safe_evalWith (safe_invoke fuel) he s ⟨rfl, rfl, hs⟩
  rw [show evalWith (invoke fuel) e s = _ from h] at hended hv
  exact ⟨hended.heap, hv⟩

theorem obeys_evaluatedAll (hs : s.heap.All (Value.Obeys d)) {es : List Expr}
    (he : Expr.AllObey d es) {vs : List Value} (h : evalAllWith (invoke fuel) es s = (.ok vs, t)) :
    t.heap.All (Value.Obeys d) ∧ ∀ v ∈ vs, v.Obeys d := by
  obtain ⟨hended, hv⟩ := safe_evalAllWith (safe_invoke fuel) he s ⟨rfl, rfl, hs⟩
  rw [h] at hended hv
  exact ⟨hended.heap, hv⟩

theorem obeys_executed (hs : s.heap.All (Value.Obeys d)) {st : Stmt} (hst : st.Obeys d)
    {c : Completion} (h : exec fuel st s = (.ok c, t)) :
    t.heap.All (Value.Obeys d) ∧ ∀ v, c = .returned v → v.Obeys d := by
  obtain ⟨hended, hc⟩ := safe_exec fuel hst s ⟨rfl, rfl, hs⟩
  rw [h] at hended hc
  refine ⟨hended.heap, ?_⟩
  rintro v rfl
  exact hc.1

theorem obeys_answered (hs : s.heap.All (Value.Obeys d)) {f : Function}
    (hf : (Value.function f).Obeys d) {vs : List Value} (hvs : ∀ v ∈ vs, v.Obeys d) {v : Value}
    (h : invoke fuel f vs s = (.ok v, t)) : v.Obeys d := by
  obtain ⟨-, hv⟩ := safe_invoke fuel s.loopDepth s.functionDepth f vs hf hvs s ⟨rfl, rfl, hs⟩
  rwa [h] at hv

end

namespace Moment

-- What is done with a value at a moment: an expression evaluates to it, a condition or an operator
-- tests whether it is true, it is shown, passed, answered, carried out of a statement, or bound.
inductive Handles : Moment → Value → Prop
  | evaluated (h : eval n e s = (.ok v, t)) : Handles ⟨n, .expression e, s⟩ v
  | negated (h : eval n e s = (.ok v, t)) : Handles ⟨n, .expression (.unary operator e), s⟩ v
  | decided (h : eval n left s = (.ok v, t)) :
      Handles ⟨n, .expression (.logical left operator right), s⟩ v
  | branched {no : Option Stmt} (h : eval n condition s = (.ok v, t)) :
      Handles ⟨n, .statement (.branch condition yes no), s⟩ v
  | repeated (h : eval n condition s = (.ok v, t)) :
      Handles ⟨n, .rounds condition body (k + 1), s⟩ v
  | shown (h : eval n e s = (.ok v, t)) : Handles ⟨n, .statement (.print e), s⟩ v
  | passed (h : evalAllWith (invoke n) es s = (.ok vs, t)) (hv : v ∈ vs) :
      Handles ⟨n, .arguments es, s⟩ v
  | given (hv : v ∈ vs) : Handles ⟨n, .call f vs, s⟩ v
  | answered (h : invoke n f vs s = (.ok v, t)) : Handles ⟨n, .call f vs, s⟩ v
  | carried (h : exec n st s = (.ok (.returned v), t)) : Handles ⟨n, .statement st, s⟩ v
  | bound {m : Moment} {id : ScopeId} {name : String} (h : m.Binds t id name v) : Handles m v

variable {d : Discipline} {m m' : Moment}

-- What a task that obeys comes to obeys again.
theorem Enters.obeys (h : m.Enters m') (hm : m.Obeys d) : m'.Obeys d := by
  obtain ⟨hheap, htask⟩ := hm
  cases h with
  | assigned => exact ⟨hheap, htask.2⟩
  | left => exact ⟨hheap, htask.2.2.1⟩
  | right hl => exact ⟨(obeys_evaluated hheap htask.2.2.1 hl).1, htask.2.2.2⟩
  | callee => exact ⟨hheap, htask.2.1⟩
  | arguments hc => exact ⟨(obeys_evaluated hheap htask.2.1 hc).1, htask.2.2⟩
  | call hc ha _ =>
    obtain ⟨ht, hf⟩ := obeys_evaluated hheap htask.2.1 hc
    obtain ⟨hu, hvs⟩ := obeys_evaluatedAll ht htask.2.2 ha
    exact ⟨hu, hf, hvs⟩
  | first => exact ⟨hheap, htask.1⟩
  | second hl _ => exact ⟨(obeys_evaluated hheap htask.1 hl).1, htask.2⟩
  | operand => exact ⟨hheap, htask.2⟩
  | argument => exact ⟨hheap, htask.1⟩
  | nextArguments he => exact ⟨(obeys_evaluated hheap htask.1 he).1, htask.2⟩
  | block => exact ⟨hheap.create _, htask⟩
  | @condition _ _ _ _ no =>
    cases no with
    | none => exact ⟨hheap, htask.1⟩
    | some no => exact ⟨hheap, htask.1⟩
  | @yes _ _ _ _ _ _ no hc _ =>
    cases no with
    | none => exact ⟨(obeys_evaluated hheap htask.1 hc).1, htask.2⟩
    | some no => exact ⟨(obeys_evaluated hheap htask.1 hc).1, htask.2.1⟩
  | no hc _ => exact ⟨(obeys_evaluated hheap htask.1 hc).1, htask.2.2⟩
  | returned _ => exact ⟨hheap, htask.2⟩
  | loop => exact ⟨hheap, htask⟩
  | test => exact ⟨hheap, htask.1⟩
  | round hc _ => exact ⟨(obeys_evaluated hheap htask.1 hc).1, htask.2⟩
  | nextRounds hc _ hb =>
    obtain ⟨ht, -⟩ := obeys_evaluated hheap htask.1 hc
    exact ⟨(obeys_executed ht htask.2 hb).1, htask⟩
  | statement => exact ⟨hheap, htask.1⟩
  | nextStatements hs => exact ⟨(obeys_executed hheap htask.1 hs).1, htask.2⟩
  | body => exact ⟨all_bindNames (hheap.create _) _ _ htask.2, htask.1⟩
  | grouping | expression | printed | initializer => exact ⟨hheap, htask⟩

theorem Leads.obeys (h : m.Leads m') (hm : m.Obeys d) : m'.Obeys d := by
  induction h with
  | refl => exact hm
  | tail _ hstep ih => exact hstep.obeys ih

theorem Binds.obeys {t : State} {id : ScopeId} {name : String} {v : Value}
    (h : m.Binds t id name v) (hm : m.Obeys d) : v.Obeys d := by
  obtain ⟨hheap, htask⟩ := hm
  cases h with
  | assigned hv _ => exact (obeys_evaluated hheap htask.2 hv).2
  | declared => trivial
  | initialized hv => exact (obeys_evaluated hheap htask hv).2
  | function => exact htask
  | parameter hmem => exact htask.2 _ (List.of_mem_zip hmem).2

theorem Handles.obeys {v : Value} (h : m.Handles v) (hm : m.Obeys d) : v.Obeys d := by
  obtain ⟨hheap, htask⟩ := hm
  cases h with
  | evaluated h => exact (obeys_evaluated hheap htask h).2
  | negated h => exact (obeys_evaluated hheap htask.2 h).2
  | decided h => exact (obeys_evaluated hheap htask.1 h).2
  | @branched _ _ _ _ _ _ no h =>
    cases no with
    | none => exact (obeys_evaluated hheap htask.1 h).2
    | some no => exact (obeys_evaluated hheap htask.1 h).2
  | repeated h => exact (obeys_evaluated hheap htask.1 h).2
  | shown h => exact (obeys_evaluated hheap htask h).2
  | passed h hv => exact (obeys_evaluatedAll hheap htask h).2 v hv
  | given hv => exact htask.2 v hv
  | answered h => exact obeys_answered hheap htask.1 htask.2 h
  | carried h => exact (obeys_executed hheap htask h).2 v rfl
  | bound h => exact h.obeys ⟨hheap, htask⟩

end Moment

theorem all_loose_iff {heap : Heap} :
    heap.All (Value.Obeys .loose) ↔ heap.All Value.Defined := by
  simp only [Heap.All, Value.obeys_loose_iff]

-- If nothing undefined is in a state, neither bound nor in the body of a function that is bound, and
-- no literal of a program is undefined, then nothing undefined is ever used as a value: at no moment
-- of the program is it bound or done anything with, and when it has ended, in whatever way, nothing
-- undefined has come into the state. An operator that is not defined for its operands fails at its
-- own token.
theorem undefined_never_used (fuel : Nat) {s : State} {program : List Stmt}
    (hs : s.heap.All Value.Defined)
    (hp : ∀ l ∈ Stmt.literalsOfAll program, l.undefined? = none) :
    (∀ m, Moment.Leads ⟨fuel, .sequence program, s.started⟩ m →
      m.state.heap.All Value.Defined ∧ ∀ v, m.Handles v → v.Defined) ∧
    (run fuel program s).2.heap.All Value.Defined ∧
    (∀ u, (run fuel program s).1 ≠ .faulted (.displayed u)) ∧
    ∀ n left operator right before a t b u operation undefined,
      eval n left before = (.ok a, t) → eval n right t = (.ok b, u) →
      Value.binary? operator.kind = some operation → operation a b = .undefined undefined →
      eval n (.binary left operator right) before =
        (.error (.error ⟨operator, operandFault operator.kind a b undefined⟩), u) := by
  rw [← all_loose_iff] at hs
  rw [← Stmt.allObey_loose_iff] at hp
  obtain ⟨hended, hheap⟩ := run_allowed fuel hp hs
  refine ⟨fun m hm => ?_, all_loose_iff.1 hheap, fun u hu => ?_, ?_⟩
  · have hobeys := hm.obeys ⟨hs, hp⟩
    exact ⟨all_loose_iff.1 hobeys.heap, fun v hv => Value.obeys_loose_iff.1 (hv.obeys hobeys)⟩
  · rw [hu] at hended
    exact hended
  · intro n left operator right before a t b u operation undefined hl hr ho hundefined
    rw [eval] at hl hr ⊢
    rw [evalWith, Eval.run_bind_ok hl, Eval.run_bind_ok hr, applyBinary, ho]
    dsimp only
    rw [hundefined]
    rfl

-- A sum of two nils is not printed.
theorem undefined_never_used_sum :
    let plus : Token := ⟨.plus, "+", .nil, 1⟩
    let program : List Stmt := [.print (.binary (.literal .nil) plus (.literal .nil))]
    (∀ l ∈ Stmt.literalsOfAll program, l.undefined? = none) ∧
      (run 1 program (.initial fun _ => 0)).2.heap.All Value.Defined ∧
      eval 1 (.binary (.literal .nil) plus (.literal .nil)) (.initial fun _ => 0) =
        (.error (.error ⟨plus, .notAddable⟩), .initial fun _ => 0) := by
  intro plus program
  have hp : ∀ l ∈ Stmt.literalsOfAll program, l.undefined? = none := by decide
  obtain ⟨-, hheap, -, hfails⟩ := undefined_never_used 1 (all_initial trivial fun _ => 0) hp
  exact ⟨hp, hheap, hfails 1 (.literal .nil) plus (.literal .nil) _ .nil _ .nil _ Value.add
    .arithmetic rfl rfl rfl rfl⟩

-- A state in which a function is bound whose body answers an undefined literal. It is a tree alone
-- that declares such a function.
def answeringUndefined : State :=
  let body : List Stmt := [.returnFrom ⟨.returnKw, "return", .nil, 1⟩
    (some (.literal (.undefined .arithmetic)))]
  (run 1 [.function ⟨.identifier, "f", .nil, 1⟩ [] body] (.initial fun _ => 0)).2

-- It is not enough that nothing undefined is bound: a call of that function evaluates to an
-- undefined value, and printing it is a fault.
theorem undefined_of_old_body :
    let call : Expr := .call (.variable ⟨.identifier, "f", .nil, 1⟩) ⟨.rightParen, ")", .nil, 1⟩ []
    answeringUndefined.heap.All (·.isUndefined = false) ∧
      (∀ l ∈ Stmt.literalsOfAll [.print call], l.undefined? = none) ∧
      (eval 1 call answeringUndefined).1 = .ok (.undefined .arithmetic) ∧
      (run 1 [.print call] answeringUndefined).1 = .faulted (.displayed .arithmetic) := by
  have hinitial : (State.initial fun _ => 0).heap.All (·.isUndefined = false) :=
    all_initial (P := (·.isUndefined = false)) rfl _
  refine ⟨hinitial.define _ _ rfl, by decide, ?_, by decide +kernel⟩
  with_unfolding_all rfl

end Run

end Lox
