import Lox.Proofs.Run.Discipline
import Lox.Proofs.Run.Parallel
import Lox.Proofs.Value.Exchanged

namespace Lox.Run

open Eval

-- States that differ in nothing but which functions stand for each other.
structure State.Exchanged (r : Renaming) (s t : State) : Prop where
  heap : s.heap.Exchanged r t.heap
  others : t = { s with heap := t.heap }
  size : s.nextIdentity = r.size
  fresh : r.Fresh

inductive Completion.Exchanged (r : Renaming) : Completion → Completion → Prop
  | normal : Exchanged r .normal .normal
  | broke : Exchanged r .broke .broke
  | returned {v w : Value} (h : v.Exchanged r w) : Exchanged r (.returned v) (.returned w)

-- Code that does the same from two states, however many functions it declares.
def Matched {α α' : Type} (r : Renaming) (good : Renaming → α → α' → Prop) (m : Eval α)
    (m' : Eval α') (s t : State) : Prop :=
  ∃ r', r.Grows r' ∧ (m s).2.Exchanged r' (m' t).2 ∧ Answers (good r') (m s).1 (m' t).1

section

variable {α α' β β' : Type} {r : Renaming} {s t : State}

theorem State.Exchanged.split (h : s.Exchanged r t) :
    ∃ heap, t = { s with heap := heap } ∧ s.heap.Exchanged r heap :=
  ⟨t.heap, h.others, h.heap⟩

theorem Matched.congr {good : Renaming → α → α' → Prop} {m n : Eval α} {m' n' : Eval α'}
    (hm : m s = n s) (hm' : m' t = n' t) (h : Matched r good n n' s t) :
    Matched r good m m' s t := by
  rwa [Matched, hm, hm']

theorem Matched.mono {good : Renaming → α → α' → Prop} {r' : Renaming} {m : Eval α}
    {m' : Eval α'} (hr : r.Grows r') (h : Matched r' good m m' s t) : Matched r good m m' s t := by
  obtain ⟨r'', hr', hstate, hanswer⟩ := h
  exact ⟨r'', hr.trans hr', hstate, hanswer⟩

theorem matched_pure {good : Renaming → α → α' → Prop} (h : s.Exchanged r t) {a : α} {b : α'}
    (hab : good r a b) : Matched r good (pure a) (pure b) s t :=
  ⟨r, .refl r, h, .ok hab⟩

theorem matched_throw {good : Renaming → α → α' → Prop} (h : s.Exchanged r t) (halt : Halt) :
    Matched r good (throw halt) (throw halt) s t :=
  ⟨r, .refl r, h, .error halt⟩

theorem matched_fail {good : Renaming → α → α' → Prop} (h : s.Exchanged r t) (token : Token)
    (fault : RuntimeFault) : Matched r good (fail token fault) (fail token fault) s t :=
  matched_throw h _

theorem Matched.bind {good : Renaming → α → α' → Prop} {good' : Renaming → β → β' → Prop}
    {m : Eval α} {m' : Eval α'} {f : α → Eval β} {f' : α' → Eval β'}
    (hm : Matched r good m m' s t)
    (hf : ∀ r' a b s' t', r.Grows r' → s'.Exchanged r' t' → good r' a b →
      Matched r' good' (f a) (f' b) s' t') :
    Matched r good' (m >>= f) (m' >>= f') s t := by
  obtain ⟨r', hr, hstate, hanswer⟩ := hm
  rcases hrun : m s with ⟨result, s'⟩
  rcases hrun' : m' t with ⟨result', t'⟩
  rw [hrun, hrun'] at hstate hanswer
  cases hanswer with
  | ok hab =>
    refine .mono hr ?_
    rw [Matched, run_bind_ok hrun, run_bind_ok hrun']
    exact hf r' _ _ s' t' hr hstate hab
  | error halt =>
    refine ⟨r', hr, ?_, ?_⟩ <;> simp only [run_bind, hrun, hrun']
    · exact hstate
    · exact .error halt

theorem matched_lookup (h : s.Exchanged r t) (name : Token) :
    Matched r Value.Exchanged (lookup name) (lookup name) s t := by
  obtain ⟨heap, rfl, hheap⟩ := h.split
  have hfound := hheap.get? s.current name.lexeme
  cases hv : s.heap.get? s.current name.lexeme <;> cases hw : heap.get? s.current name.lexeme <;>
    rw [hv, hw] at hfound <;> cases hfound
  · exact (matched_fail h name _).congr (by rw [run_lookup, hv, run_fail])
      (by rw [run_lookup, hw, run_fail])
  · next hvalue =>
    exact (matched_pure h hvalue).congr (by rw [run_lookup, hv, run_pure])
      (by rw [run_lookup, hw, run_pure])

theorem matched_defineIn (h : s.Exchanged r t) (id : ScopeId) (name : String) {v w : Value}
    (hv : v.Exchanged r w) :
    Matched r (fun _ _ _ => True) (defineIn id name v) (defineIn id name w) s t := by
  obtain ⟨heap, rfl, hheap⟩ := h.split
  exact ⟨r, .refl r, ⟨hheap.define id name hv, rfl, h.size, h.fresh⟩, .ok trivial⟩

theorem matched_define (h : s.Exchanged r t) (name : String) {v w : Value}
    (hv : v.Exchanged r w) :
    Matched r (fun _ _ _ => True) (define name v) (define name w) s t := by
  obtain ⟨heap, rfl, -⟩ := h.split
  exact matched_defineIn h s.current name hv

theorem matched_assign (h : s.Exchanged r t) (name : Token) {v w : Value}
    (hv : v.Exchanged r w) :
    Matched r (fun _ _ _ => True) (assign name v) (assign name w) s t := by
  obtain ⟨heap, rfl, hheap⟩ := h.split
  have howner := hheap.owner?_eq name.lexeme s.current
  cases ho : heap.owner? name.lexeme s.current with
  | none =>
    exact (matched_fail h name _).congr (by rw [run_assign, howner, ho, run_fail])
      (by rw [run_assign, ho, run_fail])
  | some owner =>
    exact (matched_defineIn h owner name.lexeme hv).congr (by rw [run_assign, howner, ho]; rfl)
      (by rw [run_assign, ho]; rfl)

theorem matched_newFunction (h : s.Exchanged r t) (name : Token) (parameters : List Token)
    {body body' : List Stmt} (hbody : Stmt.AllExchanged body body') :
    Matched r (fun r f g => Value.Exchanged r (.function f) (.function g))
      (newFunction name parameters body) (newFunction name parameters body') s t := by
  obtain ⟨heap, rfl, hheap⟩ := h.split
  have hsize : s.nextIdentity + 1 = r.next.size := congrArg (· + 1) h.size
  have hlt : s.nextIdentity < r.next.size := hsize ▸ Nat.lt_succ_self _
  have hperm : r.next.perm s.nextIdentity = s.nextIdentity := h.fresh _ (Nat.le_of_eq h.size.symm)
  exact ⟨r.next, r.grows_next, ⟨hheap.mono r.grows_next, rfl, hsize, h.fresh.next⟩,
    .ok (.function hlt hperm hbody)⟩

theorem matched_print (h : s.Exchanged r t) (text : String) :
    Matched r (fun _ _ _ => True) (print text) (print text) s t := by
  obtain ⟨heap, rfl, hheap⟩ := h.split
  exact ⟨r, .refl r, ⟨hheap, rfl, h.size, h.fresh⟩, .ok trivial⟩

theorem matched_readClock (h : s.Exchanged r t) :
    Matched r Value.Exchanged readClock readClock s t := by
  obtain ⟨heap, rfl, hheap⟩ := h.split
  exact ⟨r, .refl r, ⟨hheap, rfl, h.size, h.fresh⟩, .ok (.plain fun _ h => by cases h)⟩

theorem matched_inLoop {good : Renaming → α → α' → Prop} {m : Eval α} {m' : Eval α'}
    (h : s.Exchanged r t)
    (hm : s.looping.Exchanged r t.looping → Matched r good m m' s.looping t.looping) :
    Matched r good (inLoop m) (inLoop m') s t := by
  obtain ⟨heap, rfl, hheap⟩ := h.split
  obtain ⟨r', hr, hstate, hanswer⟩ := hm ⟨hheap, rfl, h.size, h.fresh⟩
  refine ⟨r', hr, ⟨hstate.heap, ?_, hstate.size, hstate.fresh⟩, hanswer⟩
  exact congrArg (fun u : State => { u with loopDepth := u.loopDepth - 1 }) hstate.others

theorem matched_enclosed {good : Renaming → Completion → Completion → Prop}
    {m m' : Eval Completion} (h : s.Exchanged r t)
    (hm : s.enclosed.Exchanged r t.enclosed → Matched r good m m' s.enclosed t.enclosed) :
    Matched r good (enclosed m) (enclosed m') s t := by
  obtain ⟨heap, rfl, hheap⟩ := h.split
  have hcurrent : heap.size = s.heap.size := hheap.size.symm
  obtain ⟨r', hr, hstate, hanswer⟩ := hm ⟨hheap.create _, by simp [State.enclosed, hcurrent],
    h.size, h.fresh⟩
  refine ⟨r', hr, ⟨hstate.heap, ?_, hstate.size, hstate.fresh⟩, hanswer⟩
  exact congrArg (fun u : State => { u with current := s.current }) hstate.others

theorem exchanged_bindNames {g h : Heap} (hp : g.Exchanged r h) (id : ScopeId) (names : List Token)
    {vs ws : List Value} (hv : List.Forall₂ (Value.Exchanged r) vs ws) :
    (bindNames g id names vs).Exchanged r (bindNames h id names ws) := by
  induction names generalizing g h vs ws with
  | nil => exact hp
  | cons name names ih =>
    cases hv with
    | nil => exact hp
    | cons hv hvs => exact ih (hp.define id name.lexeme hv) hvs

theorem matched_enter {good : Renaming → Completion → Completion → Prop}
    {run run' : List Stmt → Eval Completion} (h : s.Exchanged r t) {f g : Function}
    (hf : Value.Exchanged r (.function f) (.function g)) {vs ws : List Value}
    (hv : List.Forall₂ (Value.Exchanged r) vs ws)
    (hm : (s.entered f vs).Exchanged r (t.entered g ws) → Stmt.AllExchanged f.body g.body →
      Matched r good (run f.body) (run' g.body) (s.entered f vs) (t.entered g ws)) :
    Matched r good (enter run f vs) (enter run' g ws) s t := by
  obtain ⟨heap, rfl, hheap⟩ := h.split
  have hsize : heap.size = s.heap.size := hheap.size.symm
  cases hf with
  | plain hplain => exact absurd rfl (hplain _)
  | function hi hj hbody =>
    obtain ⟨r', hr, hstate, hanswer⟩ := hm
      ⟨by
        simp only [State.entered, hsize]
        exact exchanged_bindNames (hheap.create _) _ _ hv,
      by simp [State.entered, hsize], h.size, h.fresh⟩ hbody
    refine ⟨r', hr, ?_, ?_⟩ <;> simp only [run_enter]
    · exact ⟨hstate.heap, congrArg (fun u : State => { u with
        current := s.current
        loopDepth := s.loopDepth
        functionDepth := u.functionDepth - 1 }) hstate.others, hstate.size, hstate.fresh⟩
    · exact hanswer

end

-- Calls of functions that stand for each other, with such arguments.
def MatchedCalls (invoke : Function → List Value → Eval Value) : Prop :=
  ∀ (r : Renaming) (s t : State) f g vs ws, s.Exchanged r t →
    Value.Exchanged r (.function f) (.function g) → List.Forall₂ (Value.Exchanged r) vs ws →
    Matched r Value.Exchanged (invoke f vs) (invoke g ws) s t

section

variable {r : Renaming} {invoke : Function → List Value → Eval Value} {s t : State}

theorem matched_applyBinary (h : s.Exchanged r t) {l l' v v' : Value} (hl : l.Exchanged r l')
    (operator : Token) (hv : v.Exchanged r v') :
    Matched r Value.Exchanged (applyBinary l operator v) (applyBinary l' operator v') s t := by
  unfold applyBinary
  cases hop : Value.binary? operator.kind with
  | none => exact matched_throw h _
  | some operation =>
    have hresult := Value.isResult_binary hop l v
    simp only [Value.Exchanged.binary hop hl hv]
    cases hw : operation l v with
    | undefined u =>
      have hfault : operandFault operator.kind l' v' u = operandFault operator.kind l v u := by
        cases u <;> simp only [operandFault, hl.twins.kindName, hv.twins.kindName]
      simp only [hfault]
      exact matched_fail h operator _
    | primitive _ | function _ =>
      rw [hw] at hresult
      exact absurd hresult not_false
    | _ => exact matched_pure h (.plain fun _ h => by cases h)

theorem matched_applyUnary (h : s.Exchanged r t) (operator : Token) {v w : Value}
    (hv : v.Exchanged r w) :
    Matched r Value.Exchanged (applyUnary operator v) (applyUnary operator w) s t := by
  unfold applyUnary
  cases hop : Value.unary? operator.kind with
  | none => exact matched_throw h _
  | some operation =>
    have hresult := Value.isResult_unary hop v
    simp only [Value.Twins.unary hop hv.twins]
    refine matched_pure h (.plain fun f hf => ?_)
    rw [hf] at hresult
    exact hresult

theorem matched_applyCall (hi : MatchedCalls invoke) (h : s.Exchanged r t) {c c' : Value}
    (hc : c.Exchanged r c') (paren : Token) {vs ws : List Value}
    (hv : List.Forall₂ (Value.Exchanged r) vs ws) :
    Matched r Value.Exchanged (applyCall invoke c paren vs) (applyCall invoke c' paren ws) s t := by
  unfold applyCall
  rw [← hv.length_eq]
  cases hc with
  | function hid hperm hbody =>
    dsimp only
    split
    · exact hi r s t _ _ vs ws h (.function hid hperm hbody) hv
    · exact matched_fail h paren _
  | plain hplain =>
    cases c with
    | function f => exact absurd rfl (hplain f)
    | primitive q =>
      dsimp only
      split
      · cases q with
        | clock => exact matched_readClock h
        | inert name identity native => exact matched_pure h .nil
      · exact matched_fail h paren _
    | _ => exact matched_fail h paren _

mutual

theorem matched_evalWith {r : Renaming} {s t : State} (hi : MatchedCalls invoke)
    (h : s.Exchanged r t) (e : Expr) :
    Matched r Value.Exchanged (evalWith invoke e) (evalWith invoke e) s t := by
  cases e with
  | assign name value =>
    refine (matched_evalWith hi h value).bind fun r' v w s' t' _ h' hv => ?_
    exact (matched_assign h' name hv).bind fun _ _ _ _ _ hr h'' _ =>
      matched_pure h'' (hv.mono hr)
  | binary left operator right =>
    refine (matched_evalWith hi h left).bind fun r' l l' s' t' _ h' hl => ?_
    exact (matched_evalWith hi h' right).bind fun _ _ _ _ _ hr h'' hv =>
      matched_applyBinary h'' (hl.mono hr) operator hv
  | call callee paren arguments =>
    refine (matched_evalWith hi h callee).bind fun r' c c' s' t' _ h' hc => ?_
    exact (matched_evalAllWith hi h' arguments).bind fun _ _ _ _ _ hr h'' hv =>
      matched_applyCall hi h'' (hc.mono hr) paren hv
  | grouping inner => exact matched_evalWith hi h inner
  | literal value => exact matched_pure h (value.exchanged_value r)
  | logical left operator right =>
    refine (matched_evalWith hi h left).bind fun r' l l' s' t' _ h' hl => ?_
    rw [hl.twins.isTruthy]
    split
    · exact matched_pure h' hl
    · exact matched_evalWith hi h' right
  | unary operator operand =>
    exact (matched_evalWith hi h operand).bind fun _ _ _ _ _ _ h' hv =>
      matched_applyUnary h' operator hv
  | «variable» name => exact matched_lookup h name

theorem matched_evalAllWith {r : Renaming} {s t : State} (hi : MatchedCalls invoke)
    (h : s.Exchanged r t) (es : List Expr) :
    Matched r (fun r => List.Forall₂ (Value.Exchanged r)) (evalAllWith invoke es)
      (evalAllWith invoke es) s t := by
  cases es with
  | nil => exact matched_pure h .nil
  | cons e es =>
    refine (matched_evalWith hi h e).bind fun r' v w s' t' _ h' hv => ?_
    exact (matched_evalAllWith hi h' es).bind fun _ _ _ _ _ hr h'' hvs =>
      matched_pure h'' (.cons (hv.mono hr) hvs)

end

theorem matched_iterate {condition condition' : Eval Value} {body body' : Eval Completion}
    (hc : ∀ r s t, s.Exchanged r t → Matched r Value.Exchanged condition condition' s t)
    (hb : ∀ r s t, s.Exchanged r t → Matched r Completion.Exchanged body body' s t)
    (h : s.Exchanged r t) (rounds : Nat) :
    Matched r Completion.Exchanged (iterate condition body rounds)
      (iterate condition' body' rounds) s t := by
  induction rounds generalizing r s t with
  | zero => exact matched_throw h _
  | succ rounds ih =>
    refine (hc r s t h).bind fun r₁ v w s₁ t₁ _ h₁ hv => ?_
    rw [hv.twins.isTruthy]
    split
    · refine (hb r₁ s₁ t₁ h₁).bind fun r₂ c c' s₂ t₂ _ h₂ hcompletion => ?_
      cases hcompletion with
      | normal => exact ih h₂
      | broke => exact matched_pure h₂ .normal
      | returned hv => exact matched_pure h₂ (.returned hv)
    · exact matched_pure h₁ .normal

end

-- The state after a function declaration.
def State.declaring (s : State) (name : Token) (parameters : List Token) (body : List Stmt) :
    State :=
  { s with
    heap := s.heap.define s.current name.lexeme
      (.function ⟨s.nextIdentity, name, parameters, body, s.current⟩)
    nextIdentity := s.nextIdentity + 1 }

-- Neighbouring declarations give the same names to functions that stand crosswise for each other.
theorem State.Exchanged.crossed {r : Renaming} {s t : State} (h : s.Exchanged r t)
    {name name' : Token} (hne : name.lexeme ≠ name'.lexeme) (parameters parameters' : List Token)
    {body body' others others' : List Stmt} (hbody : Stmt.AllExchanged body body')
    (hothers : Stmt.AllExchanged others others') :
    ((s.declaring name parameters body).declaring name' parameters' others).Exchanged r.crossed
      ((t.declaring name' parameters' others').declaring name parameters body') := by
  obtain ⟨heap, rfl, hheap⟩ := h.split
  have hfirst : r.crossed.perm s.nextIdentity = s.nextIdentity + 1 := by
    rw [h.size]
    exact h.fresh.crossed_first
  have hsecond : r.crossed.perm (s.nextIdentity + 1) = s.nextIdentity := by
    rw [h.size]
    exact h.fresh.crossed_second
  have hsize : s.nextIdentity + 2 = r.crossed.size := congrArg (· + 2) h.size
  have hlt : s.nextIdentity + 1 < r.crossed.size := by omega
  exact ⟨(hheap.mono r.grows_crossed).define_define s.current hne
      (.function (Nat.lt_of_succ_lt hlt) hfirst hbody) (.function hlt hsecond hothers),
    rfl, hsize, h.fresh.crossed⟩

section

variable {invoke : Function → List Value → Eval Value}

mutual

theorem matched_execWith {r : Renaming} {s t : State} (hi : MatchedCalls invoke) (rounds : Nat)
    (h : s.Exchanged r t) {st st' : Stmt} (hst : st.Exchanged st') :
    Matched r Completion.Exchanged (execWith invoke rounds st) (execWith invoke rounds st')
      s t := by
  cases st with
  | block body =>
    cases hst with
    | leaf hleaf => exact hleaf.elim
    | block hbody =>
      exact matched_enclosed h fun h' => matched_execAllWith hi rounds h' hbody
  | breakLoop keyword =>
    cases hst
    obtain ⟨heap, rfl, -⟩ := h.split
    refine Matched.congr (run_get_bind ..) (run_get_bind ..) ?_
    split
    · exact matched_fail h keyword _
    · exact matched_pure h .broke
  | expression value =>
    cases hst
    exact (matched_evalWith hi h value).bind fun _ _ _ _ _ _ h' _ => matched_pure h' .normal
  | function name parameters body =>
    cases hst with
    | leaf hleaf => exact hleaf.elim
    | function hbody =>
      refine (matched_newFunction h name parameters hbody).bind fun _ _ _ _ _ _ h' hf => ?_
      exact (matched_define h' name.lexeme hf).bind fun _ _ _ _ _ _ h'' _ =>
        matched_pure h'' .normal
  | branch condition yes no =>
    cases hst with
    | leaf hleaf => exact hleaf.elim
    | branch hyes =>
      refine (matched_evalWith hi h condition).bind fun _ v w _ _ _ h' hv => ?_
      rw [hv.twins.isTruthy]
      split
      · exact matched_execWith hi rounds h' hyes
      · exact matched_pure h' .normal
    | branchElse hyes hno =>
      refine (matched_evalWith hi h condition).bind fun _ v w _ _ _ h' hv => ?_
      rw [hv.twins.isTruthy]
      split
      · exact matched_execWith hi rounds h' hyes
      · exact matched_execWith hi rounds h' hno
  | print value =>
    cases hst
    refine (matched_evalWith hi h value).bind fun _ v w _ _ _ h' hv => ?_
    rw [hv.twins.display]
    cases v.display with
    | error u => exact matched_throw h' _
    | ok text =>
      exact (matched_print h' text).bind fun _ _ _ _ _ _ h'' _ => matched_pure h'' .normal
  | returnFrom keyword value =>
    cases hst
    obtain ⟨heap, rfl, -⟩ := h.split
    refine Matched.congr (run_get_bind ..) (run_get_bind ..) ?_
    split
    · exact matched_fail h keyword _
    · cases value with
      | none => exact matched_pure h (.returned .nil)
      | some value =>
        exact (matched_evalWith hi h value).bind fun _ _ _ _ _ _ h' hv =>
          matched_pure h' (.returned hv)
  | declare name initializer =>
    cases hst
    cases initializer with
    | none =>
      exact (matched_define h name.lexeme .nil).bind fun _ _ _ _ _ _ h' _ =>
        matched_pure h' .normal
    | some initializer =>
      refine (matched_evalWith hi h initializer).bind fun _ _ _ _ _ _ h' hv => ?_
      exact (matched_define h' name.lexeme hv).bind fun _ _ _ _ _ _ h'' _ =>
        matched_pure h'' .normal
  | loop condition body =>
    cases hst with
    | leaf hleaf => exact hleaf.elim
    | loop hbody =>
      exact matched_inLoop h fun h' => matched_iterate
        (fun _ _ _ h => matched_evalWith hi h condition)
        (fun _ _ _ h => matched_execWith hi rounds h hbody) h' rounds
  | jump kind =>
    cases hst
    cases kind with
    | breakLoop => exact matched_pure h .broke
    | returnNil => exact matched_pure h (.returned .nil)

theorem matched_execAllWith {r : Renaming} {s t : State} (hi : MatchedCalls invoke) (rounds : Nat)
    (h : s.Exchanged r t) {ss ss' : List Stmt} (hss : Stmt.AllExchanged ss ss') :
    Matched r Completion.Exchanged (execAllWith invoke rounds ss) (execAllWith invoke rounds ss')
      s t := by
  cases hss with
  | nil => exact matched_pure h .normal
  | cons hst hss =>
    refine (matched_execWith hi rounds h hst).bind fun _ c c' _ _ _ h' hc => ?_
    cases hc with
    | normal => exact matched_execAllWith hi rounds h' hss
    | broke => exact matched_pure h' .broke
    | returned hv => exact matched_pure h' (.returned hv)
  | @swap _ _ parameters parameters' _ _ _ _ _ _ hne hbody hothers hss =>
    have hcrossed := h.crossed hne parameters parameters' hbody hothers
    exact .mono r.grows_crossed (matched_execAllWith hi rounds hcrossed hss)

end

end

theorem matched_invoke (fuel : Nat) : MatchedCalls (invoke fuel) := by
  induction fuel with
  | zero => exact fun _ _ _ _ _ _ _ h _ _ => matched_throw h _
  | succ fuel ih =>
    intro r s t f g vs ws h hf hv
    have hname : g.name = f.name := by
      cases hf with
      | plain hplain => exact absurd rfl (hplain f)
      | function => rfl
    rw [invoke, invoke, callWith_eq, callWith_eq]
    refine (matched_enter h hf hv fun h' hbody => matched_execAllWith ih fuel h' hbody).bind
      fun r' c c' s' t' _ h' hc => ?_
    cases hc with
    | normal => exact matched_pure h' .nil
    | broke =>
      rw [leave, leave, hname]
      exact matched_throw h' _
    | returned hv => exact matched_pure h' hv

theorem matched_execTop {r : Renaming} {s t : State} (fuel : Nat) (h : s.Exchanged r t)
    {program program' : List Stmt} (hprogram : Stmt.AllExchanged program program') :
    Matched r (fun _ _ _ => True) (execTop fuel program) (execTop fuel program') s t := by
  cases hprogram with
  | nil => exact matched_pure h trivial
  | cons hst hss =>
    refine (matched_execWith (matched_invoke fuel) fuel h hst).bind fun _ c c' _ _ _ h' hc => ?_
    cases hc with
    | normal => exact matched_execTop fuel h' hss
    | broke => exact matched_throw h' _
    | returned => exact matched_throw h' _
  | @swap _ _ parameters parameters' _ _ _ _ _ _ hne hbody hothers hss =>
    have hcrossed := h.crossed hne parameters parameters' hbody hothers
    exact .mono r.grows_crossed (matched_execTop fuel hcrossed hss)

end Lox.Run
