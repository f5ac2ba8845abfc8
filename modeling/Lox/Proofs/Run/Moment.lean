import Lox.Proofs.Run.Within
import Mathlib.Logic.Relation

namespace Lox.Run

-- What a run comes to at some point.
inductive Task where
  | expression (e : Expr)
  | arguments (es : List Expr)
  | statement (st : Stmt)
  | sequence (ss : List Stmt)
  | rounds (condition : Expr) (body : Stmt) (rounds : Nat)
  | call (f : Function) (arguments : List Value)

-- A task and the state in which it starts. The fuel is what calls have from there.
structure Moment where
  fuel : Nat
  task : Task
  state : State

namespace Moment

-- Which task a task comes to next, if it gets that far.
inductive Enters : Moment → Moment → Prop
  | assigned : Enters ⟨n, .expression (.assign name e), s⟩ ⟨n, .expression e, s⟩
  | left : Enters ⟨n, .expression (.binary left operator right), s⟩ ⟨n, .expression left, s⟩
  | right (hl : eval n left s = (.ok v, t)) :
      Enters ⟨n, .expression (.binary left operator right), s⟩ ⟨n, .expression right, t⟩
  | callee : Enters ⟨n, .expression (.call e paren es), s⟩ ⟨n, .expression e, s⟩
  | arguments (hc : eval n e s = (.ok v, t)) :
      Enters ⟨n, .expression (.call e paren es), s⟩ ⟨n, .arguments es, t⟩
  | call (hc : eval n e s = (.ok (.function f), t))
      (ha : evalAllWith (invoke n) es t = (.ok vs, u)) (hn : vs.length = f.parameters.length) :
      Enters ⟨n, .expression (.call e paren es), s⟩ ⟨n, .call f vs, u⟩
  | grouping : Enters ⟨n, .expression (.grouping e), s⟩ ⟨n, .expression e, s⟩
  | first : Enters ⟨n, .expression (.logical left operator right), s⟩ ⟨n, .expression left, s⟩
  | second (hl : eval n left s = (.ok v, t))
      (hv : v.isTruthy ≠ decide (operator.kind = .orKw)) :
      Enters ⟨n, .expression (.logical left operator right), s⟩ ⟨n, .expression right, t⟩
  | operand : Enters ⟨n, .expression (.unary operator e), s⟩ ⟨n, .expression e, s⟩
  | argument : Enters ⟨n, .arguments (e :: es), s⟩ ⟨n, .expression e, s⟩
  | nextArguments (he : eval n e s = (.ok v, t)) :
      Enters ⟨n, .arguments (e :: es), s⟩ ⟨n, .arguments es, t⟩
  | block : Enters ⟨n, .statement (.block ss), s⟩ ⟨n, .sequence ss, s.enclosed⟩
  | expression : Enters ⟨n, .statement (.expression e), s⟩ ⟨n, .expression e, s⟩
  | condition {no : Option Stmt} :
      Enters ⟨n, .statement (.branch condition yes no), s⟩ ⟨n, .expression condition, s⟩
  | yes {no : Option Stmt} (hc : eval n condition s = (.ok v, t)) (hv : v.isTruthy = true) :
      Enters ⟨n, .statement (.branch condition yes no), s⟩ ⟨n, .statement yes, t⟩
  | no (hc : eval n condition s = (.ok v, t)) (hv : v.isTruthy = false) :
      Enters ⟨n, .statement (.branch condition yes (some no)), s⟩ ⟨n, .statement no, t⟩
  | printed : Enters ⟨n, .statement (.print e), s⟩ ⟨n, .expression e, s⟩
  | returned (hs : s.functionDepth ≠ 0) :
      Enters ⟨n, .statement (.returnFrom keyword (some e)), s⟩ ⟨n, .expression e, s⟩
  | initializer : Enters ⟨n, .statement (.declare name (some e)), s⟩ ⟨n, .expression e, s⟩
  | loop :
      Enters ⟨n, .statement (.loop condition body), s⟩ ⟨n, .rounds condition body n, s.looping⟩
  | test :
      Enters ⟨n, .rounds condition body (k + 1), s⟩ ⟨n, .expression condition, s⟩
  | round (hc : eval n condition s = (.ok v, t)) (hv : v.isTruthy = true) :
      Enters ⟨n, .rounds condition body (k + 1), s⟩ ⟨n, .statement body, t⟩
  | nextRounds (hc : eval n condition s = (.ok v, t)) (hv : v.isTruthy = true)
      (hb : exec n body t = (.ok .normal, u)) :
      Enters ⟨n, .rounds condition body (k + 1), s⟩ ⟨n, .rounds condition body k, u⟩
  | statement : Enters ⟨n, .sequence (st :: ss), s⟩ ⟨n, .statement st, s⟩
  | nextStatements (hs : exec n st s = (.ok .normal, t)) :
      Enters ⟨n, .sequence (st :: ss), s⟩ ⟨n, .sequence ss, t⟩
  | body : Enters ⟨n + 1, .call f vs, s⟩ ⟨n, .sequence f.body, s.entered f vs⟩

-- What a moment leads to in the end, over whatever calls and loops.
def Leads : Moment → Moment → Prop :=
  Relation.ReflTransGen Enters

-- What a task binds by itself, and the state in which it does.
inductive Binds : Moment → State → ScopeId → String → Value → Prop
  | assigned {owner : ScopeId} (hv : eval n e s = (.ok v, t))
      (ho : t.heap.owner? name.lexeme t.current = some owner) :
      Binds ⟨n, .expression (.assign name e), s⟩ t owner name.lexeme v
  | declared : Binds ⟨n, .statement (.declare name none), s⟩ s s.current name.lexeme .nil
  | initialized (hv : eval n e s = (.ok v, t)) :
      Binds ⟨n, .statement (.declare name (some e)), s⟩ t t.current name.lexeme v
  | function : Binds ⟨n, .statement (.function name parameters ss), s⟩
      { s with nextIdentity := s.nextIdentity + 1 } s.current name.lexeme
      (.function ⟨s.nextIdentity, name, parameters, ss, s.current⟩)
  | parameter (h : (name, v) ∈ f.parameters.zip vs) :
      Binds ⟨n + 1, .call f vs, s⟩ (s.entered f vs) s.heap.size name.lexeme v

-- A call starts from what it is given, everything else from the scope in which it stands.
def Standing (o : Origin) : Moment → Prop
  | ⟨_, .call f vs, s⟩ =>
    s.Within o ∧ (Value.function f).In (o.known s) ∧ ∀ v ∈ vs, v.In (o.known s)
  | ⟨_, _, s⟩ => s.Standing o

end Moment

section

variable {o : Origin} {fuel : Nat} {s t : State}

theorem State.Standing.evaluated (hs : s.Standing o) {e : Expr} {v : Value}
    (h : eval fuel e s = (.ok v, t)) : s.Grows o t ∧ t.Standing o ∧ v.In (o.known t) := by
  obtain ⟨hleads, hwithin, hgood⟩ := stays_evalWith (staying_invoke o fuel) hs e
  rw [show evalWith (invoke fuel) e s = _ from h] at hleads hwithin hgood
  exact ⟨hleads.toGrows, hs.later hleads hwithin, hgood v rfl⟩

theorem State.Standing.evaluatedAll (hs : s.Standing o) {es : List Expr} {vs : List Value}
    (h : evalAllWith (invoke fuel) es s = (.ok vs, t)) :
    s.Grows o t ∧ t.Standing o ∧ ∀ v ∈ vs, v.In (o.known t) := by
  obtain ⟨hleads, hwithin, hgood⟩ := stays_evalAllWith (staying_invoke o fuel) hs es
  rw [h] at hleads hwithin hgood
  exact ⟨hleads.toGrows, hs.later hleads hwithin, hgood vs rfl⟩

theorem State.Standing.executed (hs : s.Standing o) {st : Stmt} {c : Completion}
    (h : exec fuel st s = (.ok c, t)) : s.Grows o t ∧ t.Standing o := by
  obtain ⟨hleads, hwithin, -⟩ := stays_execWith (staying_invoke o fuel) fuel hs st
  rw [show execWith (invoke fuel) fuel st s = _ from h] at hleads hwithin
  exact ⟨hleads.toGrows, hs.later hleads hwithin⟩

end

namespace Moment

variable {o : Origin} {m m' : Moment}

-- What a task comes to starts from what is known again.
theorem Enters.standing (h : m.Enters m') (hm : m.Standing o) :
    m.state.Grows o m'.state ∧ m'.Standing o := by
  cases h with
  | assigned | left | callee | grouping | first | operand | argument | expression | condition
  | printed | returned _ | initializer | test | statement => exact ⟨.refl _, hm⟩
  | right h | second h _ | arguments h | nextArguments h | yes h _ | no h _ | round h _ =>
    obtain ⟨hgrows, ht, -⟩ := State.Standing.evaluated hm h
    exact ⟨hgrows, ht⟩
  | nextStatements h => exact State.Standing.executed hm h
  | call hc ha _ =>
    obtain ⟨hgrows, ht, hf⟩ := State.Standing.evaluated hm hc
    obtain ⟨hgrows', hu, hv⟩ := ht.evaluatedAll ha
    exact ⟨hgrows.trans hgrows', hu.toWithin, hgrows'.value hf, hv⟩
  | nextRounds hc _ hb =>
    obtain ⟨hgrows, ht, -⟩ := State.Standing.evaluated hm hc
    obtain ⟨hgrows', hu⟩ := ht.executed hb
    exact ⟨hgrows.trans hgrows', hu⟩
  | block => exact State.Standing.enclosed hm
  | loop =>
    exact ⟨⟨Nat.le_refl _, Nat.le_refl _, fun _ _ _ => rfl⟩, State.Standing.looping hm⟩
  | body =>
    obtain ⟨hs, hf, hv⟩ := hm
    exact hs.entered hf hv

theorem Leads.standing (h : m.Leads m') (hm : m.Standing o) :
    m.state.Grows o m'.state ∧ m'.Standing o := by
  induction h with
  | refl => exact ⟨.refl _, hm⟩
  | tail _ hstep ih =>
    obtain ⟨hgrows, hm'⟩ := ih
    exact (hstep.standing hm').imp_left hgrows.trans

-- What it binds is known, and so is the scope in which it binds it.
theorem Binds.known {t : State} {id : ScopeId} {name : String} {v : Value}
    (h : m.Binds t id name v) (hm : m.Standing o) :
    m.state.Grows o t ∧ (o.known t).scopes id ∧ v.In (o.known t) := by
  cases h with
  | assigned hv ho =>
    obtain ⟨hgrows, ht, hv⟩ := State.Standing.evaluated hm hv
    exact ⟨hgrows, ht.heap.owner? ht.current ho, hv⟩
  | declared =>
    have hs : State.Standing o _ := hm
    exact ⟨.refl _, hs.current, trivial⟩
  | initialized hv =>
    obtain ⟨hgrows, ht, hv⟩ := State.Standing.evaluated hm hv
    exact ⟨hgrows, ht.current, hv⟩
  | function =>
    have hs : State.Standing o _ := hm
    obtain ⟨hleads, -, hf⟩ := stays_newFunction hs _ _ _
    exact ⟨hleads.toGrows, hs.current, hf _ rfl⟩
  | parameter hmem =>
    obtain ⟨hs, hf, hv⟩ := hm
    obtain ⟨hgrows, hstanding⟩ := hs.entered hf hv
    exact ⟨hgrows, hstanding.current, hgrows.value (hv _ (List.of_mem_zip hmem).2)⟩

end Moment

end Lox.Run
