import Lox.Proofs.Run.Discipline
import Lox.Proofs.Run.Restores
import Lox.Proofs.Value.Paired
import Mathlib.Data.List.Forall2

namespace Lox

-- A statement that declares nothing but in scopes of its own.
def Stmt.Contained : Stmt → Prop
  | .declare _ _ => False
  | .function _ _ _ => False
  | .branch _ yes none => yes.Contained
  | .branch _ yes (some no) => yes.Contained ∧ no.Contained
  | .loop _ body => body.Contained
  | _ => True

namespace Run

open Eval

-- States that cannot be told apart by code that runs from scopes that stand for each other. They
-- may have printed different texts, but the same since then.
structure State.Paired (p : Pairing) (before before' : String) (s t : State) : Prop where
  heap : Heap.Paired p s.heap t.heap
  functions : ∃ k, s.nextIdentity = p.leftFunctions + k ∧ t.nextIdentity = p.rightFunctions + k
  clock : ∀ k, s.clock (s.readings + k) = t.clock (t.readings + k)
  printed : ∃ text, s.printed = before ++ text ∧ t.printed = before' ++ text

-- Where code runs in them. Of the depths it can only see whether they are zero.
structure State.Beside (p : Pairing) (s t : State) : Prop where
  current : p.scopes s.current t.current
  loops : s.loopDepth = 0 ↔ t.loopDepth = 0
  calls : s.functionDepth = 0 ↔ t.functionDepth = 0

inductive Answers {α α' : Type} (good : α → α' → Prop) : Except Halt α → Except Halt α' → Prop
  | ok {a : α} {b : α'} (h : good a b) : Answers good (.ok a) (.ok b)
  | error (h : Halt) : Answers good (.error h) (.error h)

-- Code that does the same from two states.
structure Parallel {α α' : Type} (p : Pairing) (before before' : String) (good : α → α' → Prop)
    (m : Eval α) (m' : Eval α') (s t : State) : Prop where
  state : (m s).2.Paired p before before' (m' t).2
  place : (m s).2.place = s.place
  place' : (m' t).2.place = t.place
  answer : Answers good (m s).1 (m' t).1

inductive Completion.Paired (p : Pairing) : Completion → Completion → Prop
  | normal : Paired p .normal .normal
  | broke : Paired p .broke .broke
  | returned {v w : Value} (h : v.Paired p w) : Paired p (.returned v) (.returned w)

section

variable {α α' β β' : Type} {p : Pairing} {before before' : String} {s t : State}

theorem State.paired_refl (s : State) : s.Paired .diagonal s.printed s.printed s :=
  ⟨s.heap.paired_refl, ⟨s.nextIdentity, by simp [Pairing.diagonal]⟩, fun _ => rfl, "", by simp,
    by simp⟩

theorem Answers.imp {good good' : α → α' → Prop} (h : ∀ a b, good a b → good' a b)
    {r : Except Halt α} {r' : Except Halt α'} (hr : Answers good r r') : Answers good' r r' := by
  cases hr with
  | ok hab => exact .ok (h _ _ hab)
  | error halt => exact .error halt

theorem State.Beside.later (h : s.Beside p t) {s' t' : State} (hs : s'.place = s.place)
    (ht : t'.place = t.place) : s'.Beside p t' := by
  obtain ⟨hc, hl, hf⟩ := Place.mk.inj hs
  obtain ⟨hc', hl', hf'⟩ := Place.mk.inj ht
  exact ⟨by rw [hc, hc']; exact h.current, by rw [hl, hl']; exact h.loops,
    by rw [hf, hf']; exact h.calls⟩

theorem Parallel.congr {good : α → α' → Prop} {m n : Eval α} {m' n' : Eval α'} (hm : m s = n s)
    (hm' : m' t = n' t) (h : Parallel p before before' good n n' s t) :
    Parallel p before before' good m m' s t :=
  ⟨hm ▸ hm' ▸ h.state, hm ▸ h.place, hm' ▸ h.place', hm ▸ hm' ▸ h.answer⟩

theorem parallel_pure {good : α → α' → Prop} (h : s.Paired p before before' t) {a : α} {b : α'}
    (hab : good a b) : Parallel p before before' good (pure a) (pure b) s t :=
  ⟨h, rfl, rfl, .ok hab⟩

theorem parallel_throw {good : α → α' → Prop} (h : s.Paired p before before' t) (halt : Halt) :
    Parallel p before before' good (throw halt) (throw halt) s t :=
  ⟨h, rfl, rfl, .error halt⟩

theorem parallel_fail {good : α → α' → Prop} (h : s.Paired p before before' t) (token : Token)
    (fault : RuntimeFault) :
    Parallel p before before' good (fail token fault) (fail token fault) s t :=
  parallel_throw h _

-- Both stop, whatever was to follow, or both go on.
theorem Parallel.stops_or_goes_on {good : α → α' → Prop} {m : Eval α} {m' : Eval α'}
    (hm : Parallel p before before' good m m' s t) (good' : β → β' → Prop) (f : α → Eval β)
    (f' : α' → Eval β') :
    Parallel p before before' good' (m >>= f) (m' >>= f') s t ∨
      ∃ a b s' t', m s = (.ok a, s') ∧ m' t = (.ok b, t') ∧ s'.Paired p before before' t' ∧
        s'.place = s.place ∧ t'.place = t.place ∧ good a b := by
  obtain ⟨hstate, hplace, hplace', hanswer⟩ := hm
  rcases hrun : m s with ⟨r, s'⟩
  rcases hrun' : m' t with ⟨r', t'⟩
  rw [hrun, hrun'] at hstate hanswer
  rw [hrun] at hplace
  rw [hrun'] at hplace'
  cases hanswer with
  | ok hab => exact .inr ⟨_, _, s', t', rfl, rfl, hstate, hplace, hplace', hab⟩
  | error halt =>
    refine .inl ⟨?_, ?_, ?_, ?_⟩ <;> simp only [run_bind, hrun, hrun']
    · exact hstate
    · exact hplace
    · exact hplace'
    · exact .error halt

theorem Parallel.after {good : β → β' → Prop} {m : Eval α} {m' : Eval α'} {f : α → Eval β}
    {f' : α' → Eval β'} {a : α} {b : α'} {s' t' : State} (hs : m s = (.ok a, s'))
    (ht : m' t = (.ok b, t')) (hplace : s'.place = s.place) (hplace' : t'.place = t.place)
    (h : Parallel p before before' good (f a) (f' b) s' t') :
    Parallel p before before' good (m >>= f) (m' >>= f') s t := by
  obtain ⟨hstate, hnext, hnext', hanswer⟩ := h
  rw [← run_bind_ok hs f, ← run_bind_ok ht f'] at hstate hanswer
  rw [← run_bind_ok hs f] at hnext
  rw [← run_bind_ok ht f'] at hnext'
  exact ⟨hstate, hnext.trans hplace, hnext'.trans hplace', hanswer⟩

theorem Parallel.bind {good : α → α' → Prop} {good' : β → β' → Prop} {m : Eval α} {m' : Eval α'}
    {f : α → Eval β} {f' : α' → Eval β'} (hm : Parallel p before before' good m m' s t)
    (hf : ∀ a b s' t', s'.Paired p before before' t' → s'.place = s.place → t'.place = t.place →
      good a b → Parallel p before before' good' (f a) (f' b) s' t') :
    Parallel p before before' good' (m >>= f) (m' >>= f') s t := by
  obtain hstops | ⟨a, b, s', t', hs, ht, hstate, hplace, hplace', hab⟩ :=
    hm.stops_or_goes_on good' f f'
  · exact hstops
  · exact .after hs ht hplace hplace' (hf a b s' t' hstate hplace hplace' hab)

-- Code that goes on in the same place still stands beside the other.
theorem Parallel.then {good : α → α' → Prop} {good' : β → β' → Prop} {m : Eval α} {m' : Eval α'}
    {f : α → Eval β} {f' : α' → Eval β'} (hm : Parallel p before before' good m m' s t)
    (hb : s.Beside p t)
    (hf : ∀ a b s' t', s'.Paired p before before' t' → s'.Beside p t' → s'.current = s.current →
      good a b → Parallel p before before' good' (f a) (f' b) s' t') :
    Parallel p before before' good' (m >>= f) (m' >>= f') s t :=
  hm.bind fun a b s' t' hst hs ht => hf a b s' t' hst (hb.later hs ht) (congrArg Place.current hs)

theorem parallel_lookup (h : s.Paired p before before' t) (hb : s.Beside p t) (name : Token) :
    Parallel p before before' (Value.Paired p) (lookup name) (lookup name) s t := by
  have hfound := h.heap.get? hb.current name.lexeme
  cases hv : s.heap.get? s.current name.lexeme <;> cases hw : t.heap.get? t.current name.lexeme <;>
    rw [hv, hw] at hfound <;> cases hfound
  · exact (parallel_fail h name _).congr (by rw [run_lookup, hv, run_fail])
      (by rw [run_lookup, hw, run_fail])
  · next hvalue =>
    exact (parallel_pure h hvalue).congr (by rw [run_lookup, hv, run_pure])
      (by rw [run_lookup, hw, run_pure])

theorem parallel_defineIn (h : s.Paired p before before' t) {a b : ScopeId} (hab : p.scopes a b)
    (hsolid : ¬ p.hollow a) (name : String) {v w : Value} (hv : v.Paired p w) :
    Parallel p before before' (fun _ _ => True) (defineIn a name v) (defineIn b name w) s t :=
  ⟨⟨h.heap.define hab hsolid name hv, h.functions, h.clock, h.printed⟩, rfl, rfl, .ok trivial⟩

theorem parallel_define (h : s.Paired p before before' t) (hb : s.Beside p t)
    (hsolid : ¬ p.hollow s.current) (name : String) {v w : Value} (hv : v.Paired p w) :
    Parallel p before before' (fun _ _ => True) (define name v) (define name w) s t :=
  (parallel_defineIn h hb.current hsolid name hv).congr (run_define ..) (run_define ..)

theorem parallel_assign (h : s.Paired p before before' t) (hb : s.Beside p t) (name : Token)
    {v w : Value} (hv : v.Paired p w) :
    Parallel p before before' (fun _ _ => True) (assign name v) (assign name w) s t := by
  have howner := h.heap.owner? name.lexeme hb.current
  cases ho : s.heap.owner? name.lexeme s.current <;>
    cases ho' : t.heap.owner? name.lexeme t.current <;> rw [ho, ho'] at howner <;> cases howner
  · exact (parallel_fail h name _).congr (by rw [run_assign, ho, run_fail])
      (by rw [run_assign, ho', run_fail])
  · next o o' hsolid =>
    exact (parallel_defineIn h hsolid.1 hsolid.2 name.lexeme hv).congr
      (by rw [run_assign, ho]; rfl) (by rw [run_assign, ho']; rfl)

-- Functions that are declared in turn stand for each other.
theorem parallel_newFunction (h : s.Paired p before before' t) (hb : s.Beside p t) (name : Token)
    (parameters : List Token) (body : List Stmt) :
    Parallel p before before' (fun f g => Value.Paired p (.function f) (.function g))
      (newFunction name parameters body) (newFunction name parameters body) s t := by
  obtain ⟨k, hk, hk'⟩ := h.functions
  have hnext : ∃ k, s.nextIdentity + 1 = p.leftFunctions + k ∧
      t.nextIdentity + 1 = p.rightFunctions + k := ⟨k + 1, by omega, by omega⟩
  exact ⟨⟨h.heap, hnext, h.clock, h.printed⟩, rfl, rfl, .ok (.function (.inr ⟨k, hk, hk'⟩) hb.current)⟩

theorem parallel_print (h : s.Paired p before before' t) (text : String) :
    Parallel p before before' (fun _ _ => True) (print text) (print text) s t := by
  obtain ⟨since, hs, ht⟩ := h.printed
  refine ⟨⟨h.heap, h.functions, h.clock, since ++ text ++ "\n", ?_, ?_⟩, rfl, rfl, .ok trivial⟩
  · simp only [run_print, hs, String.append_assoc]
  · simp only [run_print, ht, String.append_assoc]

theorem parallel_readClock (h : s.Paired p before before' t) :
    Parallel p before before' (Value.Paired p) readClock readClock s t := by
  have hnow : s.clock s.readings = t.clock t.readings := h.clock 0
  refine ⟨⟨h.heap, h.functions, fun k => ?_, h.printed⟩, rfl, rfl, ?_⟩
  · have hlater := h.clock (k + 1)
    simp only [run_readClock]
    rwa [Nat.add_right_comm s.readings 1 k, Nat.add_right_comm t.readings 1 k]
  · rw [run_readClock, run_readClock, hnow]
    exact .ok (.plain fun _ h => by cases h)

theorem parallel_inLoop {good : α → α' → Prop} {m : Eval α} {m' : Eval α'}
    (hm : Parallel p before before' good m m' s.looping t.looping) :
    Parallel p before before' good (inLoop m) (inLoop m') s t :=
  ⟨⟨hm.state.heap, hm.state.functions, hm.state.clock, hm.state.printed⟩, place_inLoop hm.place,
    place_inLoop hm.place', hm.answer⟩

-- New scopes, around which there are scopes that stand for each other.
theorem paired_enclosed (h : s.Paired p before before' t) (hb : s.Beside p t) :
    s.enclosed.Paired p before before' t.enclosed ∧ s.enclosed.Beside p t.enclosed ∧
      ¬ p.hollow s.enclosed.current :=
  ⟨⟨h.heap.create hb.current, h.functions, h.clock, h.printed⟩, ⟨h.heap.next, hb.loops, hb.calls⟩,
    h.heap.solid_next⟩

theorem parallel_enclosed {good : Completion → Completion → Prop} {m m' : Eval Completion}
    (hm : Parallel p before before' good m m' s.enclosed t.enclosed) :
    Parallel p before before' good (enclosed m) (enclosed m') s t :=
  ⟨⟨hm.state.heap, hm.state.functions, hm.state.clock, hm.state.printed⟩, place_enclosed hm.place,
    place_enclosed hm.place', hm.answer⟩

theorem paired_bindNames {g h : Heap} (hp : Heap.Paired p g h) {a b : ScopeId}
    (hab : p.scopes a b) (hsolid : ¬ p.hollow a) (names : List Token) {vs ws : List Value}
    (hv : List.Forall₂ (Value.Paired p) vs ws) :
    Heap.Paired p (bindNames g a names vs) (bindNames h b names ws) := by
  induction names generalizing g h vs ws with
  | nil => exact hp
  | cons name names ih =>
    cases hv with
    | nil => exact hp
    | cons hv hvs => exact ih (hp.define hab hsolid name.lexeme hv) hvs

-- A call enters the same body wherever it stands.
theorem parallel_enter {good : Completion → Completion → Prop}
    {run run' : List Stmt → Eval Completion} (h : s.Paired p before before' t) {f g : Function}
    (hf : Value.Paired p (.function f) (.function g)) {vs ws : List Value}
    (hv : List.Forall₂ (Value.Paired p) vs ws)
    (hm : (s.entered f vs).Paired p before before' (t.entered g ws) →
      (s.entered f vs).Beside p (t.entered g ws) → ¬ p.hollow (s.entered f vs).current →
      Parallel p before before' good (run f.body) (run' g.body) (s.entered f vs)
        (t.entered g ws)) :
    Parallel p before before' good (enter run f vs) (enter run' g ws) s t := by
  cases hf with
  | plain hplain => exact absurd rfl (hplain _)
  | function hi hs =>
    obtain ⟨hstate, hplace, hplace', hanswer⟩ := hm
      ⟨paired_bindNames (h.heap.create hs) h.heap.next h.heap.solid_next f.parameters hv,
        h.functions, h.clock, h.printed⟩
      ⟨h.heap.next, Iff.rfl, by simp [State.entered]⟩ h.heap.solid_next
    refine ⟨?_, place_enter hplace, place_enter hplace', ?_⟩ <;> simp only [run_enter]
    · exact ⟨hstate.heap, hstate.functions, hstate.clock, hstate.printed⟩
    · exact hanswer

end

-- Calls of functions that stand for each other, with such arguments, wherever they stand.
def ParallelCalls (p : Pairing) (before before' : String)
    (invoke : Function → List Value → Eval Value) : Prop :=
  ∀ (s t : State) f g vs ws, s.Paired p before before' t →
    Value.Paired p (.function f) (.function g) → List.Forall₂ (Value.Paired p) vs ws →
    Parallel p before before' (Value.Paired p) (invoke f vs) (invoke g ws) s t

section

variable {p : Pairing} {before before' : String} {invoke : Function → List Value → Eval Value}
  {s t : State}

theorem parallel_applyBinary (h : s.Paired p before before' t) {l l' r r' : Value}
    (hl : l.Paired p l') (operator : Token) (hr : r.Paired p r') :
    Parallel p before before' (Value.Paired p) (applyBinary l operator r)
      (applyBinary l' operator r') s t := by
  unfold applyBinary
  cases hop : Value.binary? operator.kind with
  | none => exact parallel_throw h _
  | some operation =>
    have hresult := Value.isResult_binary hop l r
    simp only [Value.Paired.binary hop hl hr]
    cases hv : operation l r with
    | undefined u =>
      have hfault : operandFault operator.kind l' r' u = operandFault operator.kind l r u := by
        cases u <;> simp only [operandFault, hl.kindName, hr.kindName]
      simp only [hfault]
      exact parallel_fail h operator _
    | primitive _ | function _ =>
      rw [hv] at hresult
      exact absurd hresult not_false
    | _ => exact parallel_pure h (.plain fun _ h => by cases h)

theorem parallel_applyUnary (h : s.Paired p before before' t) (operator : Token) {v w : Value}
    (hv : v.Paired p w) :
    Parallel p before before' (Value.Paired p) (applyUnary operator v) (applyUnary operator w)
      s t := by
  unfold applyUnary
  cases hop : Value.unary? operator.kind with
  | none => exact parallel_throw h _
  | some operation =>
    have hresult := Value.isResult_unary hop v
    simp only [Value.Paired.unary hop hv]
    refine parallel_pure h (.plain fun f hf => ?_)
    rw [hf] at hresult
    exact hresult

theorem parallel_applyCall (hi : ParallelCalls p before before' invoke)
    (h : s.Paired p before before' t) {c c' : Value} (hc : c.Paired p c') (paren : Token)
    {vs ws : List Value} (hv : List.Forall₂ (Value.Paired p) vs ws) :
    Parallel p before before' (Value.Paired p) (applyCall invoke c paren vs)
      (applyCall invoke c' paren ws) s t := by
  unfold applyCall
  rw [← hv.length_eq]
  cases hc with
  | function hid hs =>
    dsimp only
    split
    · exact hi s t _ _ vs ws h (.function hid hs) hv
    · exact parallel_fail h paren _
  | plain hplain =>
    cases c with
    | function f => exact absurd rfl (hplain f)
    | primitive q =>
      dsimp only
      split
      · cases q with
        | clock => exact parallel_readClock h
        | inert name identity native => exact parallel_pure h .nil
      · exact parallel_fail h paren _
    | _ => exact parallel_fail h paren _

mutual

theorem parallel_evalWith {s t : State} (hi : ParallelCalls p before before' invoke)
    (h : s.Paired p before before' t) (hb : s.Beside p t) (e : Expr) :
    Parallel p before before' (Value.Paired p) (evalWith invoke e) (evalWith invoke e) s t := by
  cases e with
  | assign name value =>
    refine (parallel_evalWith hi h hb value).then hb fun v w s' t' h' hb' _ hv => ?_
    exact (parallel_assign h' hb' name hv).bind fun _ _ _ _ h'' _ _ _ => parallel_pure h'' hv
  | binary left operator right =>
    refine (parallel_evalWith hi h hb left).then hb fun l l' s' t' h' hb' _ hl => ?_
    exact (parallel_evalWith hi h' hb' right).bind fun r r' _ _ h'' _ _ hr =>
      parallel_applyBinary h'' hl operator hr
  | call callee paren arguments =>
    refine (parallel_evalWith hi h hb callee).then hb fun c c' s' t' h' hb' _ hc => ?_
    exact (parallel_evalAllWith hi h' hb' arguments).bind fun vs ws _ _ h'' _ _ hv =>
      parallel_applyCall hi h'' hc paren hv
  | grouping inner => exact parallel_evalWith hi h hb inner
  | literal value => exact parallel_pure h (value.paired_value p)
  | logical left operator right =>
    refine (parallel_evalWith hi h hb left).then hb fun l l' s' t' h' hb' _ hl => ?_
    rw [hl.isTruthy]
    split
    · exact parallel_pure h' hl
    · exact parallel_evalWith hi h' hb' right
  | unary operator operand =>
    exact (parallel_evalWith hi h hb operand).bind fun v w _ _ h' _ _ hv =>
      parallel_applyUnary h' operator hv
  | «variable» name => exact parallel_lookup h hb name

theorem parallel_evalAllWith {s t : State} (hi : ParallelCalls p before before' invoke)
    (h : s.Paired p before before' t) (hb : s.Beside p t) (es : List Expr) :
    Parallel p before before' (List.Forall₂ (Value.Paired p)) (evalAllWith invoke es)
      (evalAllWith invoke es) s t := by
  cases es with
  | nil => exact parallel_pure h .nil
  | cons e es =>
    refine (parallel_evalWith hi h hb e).then hb fun v w s' t' h' hb' _ hv => ?_
    exact (parallel_evalAllWith hi h' hb' es).bind fun vs ws _ _ h'' _ _ hvs =>
      parallel_pure h'' (.cons hv hvs)

end

theorem parallel_iterate {condition condition' : Eval Value} {body body' : Eval Completion}
    (h : s.Paired p before before' t) (hb : s.Beside p t)
    (hc : ∀ s' t', s'.Paired p before before' t' → s'.Beside p t' → s'.current = s.current →
      Parallel p before before' (Value.Paired p) condition condition' s' t')
    (hs : ∀ s' t', s'.Paired p before before' t' → s'.Beside p t' → s'.current = s.current →
      Parallel p before before' (Completion.Paired p) body body' s' t') (rounds : Nat) :
    Parallel p before before' (Completion.Paired p) (iterate condition body rounds)
      (iterate condition' body' rounds) s t := by
  induction rounds generalizing s t with
  | zero => exact parallel_throw h _
  | succ rounds ih =>
    refine (hc s t h hb rfl).then hb fun v w s₁ t₁ h₁ hb₁ hcurrent₁ hv => ?_
    rw [hv.isTruthy]
    split
    · refine (hs s₁ t₁ h₁ hb₁ hcurrent₁).then hb₁ fun c c' s₂ t₂ h₂ hb₂ hcurrent₂ hcompletion => ?_
      have hcurrent := hcurrent₂.trans hcurrent₁
      cases hcompletion with
      | normal =>
        exact ih h₂ hb₂ (fun s' t' h' hb' hs' => hc s' t' h' hb' (hs'.trans hcurrent))
          fun s' t' h' hb' hs' => hs s' t' h' hb' (hs'.trans hcurrent)
      | broke => exact parallel_pure h₂ .normal
      | returned hv => exact parallel_pure h₂ (.returned hv)
    · exact parallel_pure h₁ .normal

end

section

variable {p : Pairing} {before before' : String} {invoke : Function → List Value → Eval Value}

mutual

-- In a hollow scope nothing may be declared, since that would give it names of its own.
theorem parallel_execWith {s t : State} (hi : ParallelCalls p before before' invoke)
    (rounds : Nat) (h : s.Paired p before before' t) (hb : s.Beside p t) {st : Stmt}
    (hst : p.hollow s.current → st.Contained) :
    Parallel p before before' (Completion.Paired p) (execWith invoke rounds st)
      (execWith invoke rounds st) s t := by
  cases st with
  | block body =>
    obtain ⟨h', hb', hsolid⟩ := paired_enclosed h hb
    exact parallel_enclosed (parallel_execAllWith hi rounds h' hb' hsolid body)
  | breakLoop keyword =>
    refine Parallel.congr (run_get_bind ..) (run_get_bind ..) ?_
    rw [if_congr hb.loops rfl rfl]
    split
    · exact parallel_fail h keyword _
    · exact parallel_pure h .broke
  | expression value =>
    exact (parallel_evalWith hi h hb value).bind fun _ _ _ _ h' _ _ _ => parallel_pure h' .normal
  | function name parameters body =>
    refine (parallel_newFunction h hb name parameters body).then hb fun f g s' t' h' hb' hs' hf => ?_
    exact (parallel_define h' hb' (fun hhollow => hst (hs' ▸ hhollow)) name.lexeme hf).bind
      fun _ _ _ _ h'' _ _ _ => parallel_pure h'' .normal
  | branch condition yes no =>
    cases no with
    | none =>
      refine (parallel_evalWith hi h hb condition).then hb fun v w s' t' h' hb' hs' hv => ?_
      rw [hv.isTruthy]
      split
      · exact parallel_execWith hi rounds h' hb' fun hhollow => hst (hs' ▸ hhollow)
      · exact parallel_pure h' .normal
    | some no =>
      refine (parallel_evalWith hi h hb condition).then hb fun v w s' t' h' hb' hs' hv => ?_
      rw [hv.isTruthy]
      split
      · exact parallel_execWith hi rounds h' hb' fun hhollow => (hst (hs' ▸ hhollow)).1
      · exact parallel_execWith hi rounds h' hb' fun hhollow => (hst (hs' ▸ hhollow)).2
  | print value =>
    refine (parallel_evalWith hi h hb value).bind fun v w s' t' h' _ _ hv => ?_
    rw [hv.display]
    cases v.display with
    | error u => exact parallel_throw h' _
    | ok text =>
      exact (parallel_print h' text).bind fun _ _ _ _ h'' _ _ _ => parallel_pure h'' .normal
  | returnFrom keyword value =>
    refine Parallel.congr (run_get_bind ..) (run_get_bind ..) ?_
    rw [if_congr hb.calls rfl rfl]
    split
    · exact parallel_fail h keyword _
    · cases value with
      | none => exact parallel_pure h (.returned .nil)
      | some value =>
        exact (parallel_evalWith hi h hb value).bind fun _ _ _ _ h' _ _ hv =>
          parallel_pure h' (.returned hv)
  | declare name initializer =>
    cases initializer with
    | none =>
      exact (parallel_define h hb hst name.lexeme .nil).bind
        fun _ _ _ _ h' _ _ _ => parallel_pure h' .normal
    | some initializer =>
      refine (parallel_evalWith hi h hb initializer).then hb fun v w s' t' h' hb' hs' hv => ?_
      exact (parallel_define h' hb' (fun hhollow => hst (hs' ▸ hhollow)) name.lexeme hv).bind
        fun _ _ _ _ h'' _ _ _ => parallel_pure h'' .normal
  | loop condition body =>
    have hbody : p.hollow s.current → body.Contained := hst
    have hpaired : s.looping.Paired p before before' t.looping :=
      ⟨h.heap, h.functions, h.clock, h.printed⟩
    have hlooping : s.looping.Beside p t.looping :=
      ⟨hb.current, by simp [State.looping], hb.calls⟩
    exact parallel_inLoop (parallel_iterate hpaired hlooping
      (fun s' t' h' hb' _ => parallel_evalWith hi h' hb' condition)
      (fun s' t' h' hb' hs' => parallel_execWith hi rounds h' hb' fun hhollow =>
        hbody (hs' ▸ hhollow)) rounds)
  | jump kind =>
    cases kind with
    | breakLoop => exact parallel_pure h .broke
    | returnNil => exact parallel_pure h (.returned .nil)

theorem parallel_execAllWith {s t : State} (hi : ParallelCalls p before before' invoke)
    (rounds : Nat) (h : s.Paired p before before' t) (hb : s.Beside p t)
    (hsolid : ¬ p.hollow s.current) (ss : List Stmt) :
    Parallel p before before' (Completion.Paired p) (execAllWith invoke rounds ss)
      (execAllWith invoke rounds ss) s t := by
  cases ss with
  | nil => exact parallel_pure h .normal
  | cons st ss =>
    refine (parallel_execWith hi rounds h hb fun hhollow => absurd hhollow hsolid).then hb
      fun c c' s' t' h' hb' hs' hc => ?_
    cases hc with
    | normal => exact parallel_execAllWith hi rounds h' hb' (hs' ▸ hsolid) ss
    | broke => exact parallel_pure h' .broke
    | returned hv => exact parallel_pure h' (.returned hv)

end

theorem parallel_invoke (p : Pairing) (before before' : String) (fuel : Nat) :
    ParallelCalls p before before' (Run.invoke fuel) := by
  induction fuel with
  | zero => exact fun _ _ _ _ _ _ h _ _ => parallel_throw h _
  | succ fuel ih =>
    intro s t f g vs ws h hf hv
    rw [Run.invoke, Run.invoke, callWith_eq, callWith_eq]
    cases hf with
    | plain hplain => exact absurd rfl (hplain f)
    | @function _ identity scope hid hs =>
      refine (parallel_enter h (.function hid hs) hv fun h' hb' hsolid =>
        parallel_execAllWith ih fuel h' hb' hsolid f.body).bind fun c c' s' t' h' _ _ hc => ?_
      cases hc with
      | normal => exact parallel_pure h' .nil
      | broke => exact parallel_throw h' _
      | returned hv => exact parallel_pure h' hv

end

end Run

end Lox
