import Lox.Proofs.Run.Discipline
import Lox.Proofs.Run.Running
import Lox.Proofs.Value.Region

namespace Lox.Run

open Eval

-- What code knows from the start: a region, at a moment when there were so many scopes and
-- functions.
structure Origin where
  region : Region
  scopes : Nat
  identities : Nat

-- What it can know later: the region, and what was created since.
def Origin.known (o : Origin) (s : State) : Region where
  scopes id := o.region.scopes id ∨ o.scopes ≤ id ∧ id < s.heap.size
  identities i := o.region.identities i ∨ o.identities ≤ i ∧ i < s.nextIdentity

-- A state in which nothing that is known leads to anything else.
structure State.Within (o : Origin) (s : State) : Prop where
  scopes : o.scopes ≤ s.heap.size
  identities : o.identities ≤ s.nextIdentity
  heap : s.heap.Closed (o.known s)

-- The code that runs in it stands in a scope that is known.
structure State.Standing (o : Origin) (s : State) : Prop extends s.Within o where
  current : (o.known s).scopes s.current

-- How a state may change: there is more of everything, and what is not known is left alone.
structure State.Grows (o : Origin) (s t : State) : Prop where
  scopes : s.heap.size ≤ t.heap.size
  identities : s.nextIdentity ≤ t.nextIdentity
  unknown : ∀ id < s.heap.size, ¬ (o.known s).scopes id → t.heap[id]? = s.heap[id]?

-- How code may change it, which ends in the scope in which it starts.
structure State.Leads (o : Origin) (s t : State) : Prop extends s.Grows o t where
  current : t.current = s.current

-- What code does from a state, if its answer is good in the state in which it ends.
structure Stays {α : Type} (o : Origin) (good : State → α → Prop) (m : Eval α) (s : State) :
    Prop where
  leads : s.Leads o (m s).2
  within : (m s).2.Within o
  answer : ∀ a, (m s).1 = .ok a → good (m s).2 a

-- The value that a statement carries with it as it ends.
def Completion.In (r : Region) : Completion → Prop
  | .returned value => value.In r
  | _ => True

section

variable {α β : Type} {o : Origin} {s t u : State}

theorem known_scopes (h : s.heap.size ≤ t.heap.size) {id : ScopeId}
    (hid : (o.known s).scopes id) : (o.known t).scopes id :=
  hid.imp_right fun ⟨hle, hlt⟩ => ⟨hle, Nat.lt_of_lt_of_le hlt h⟩

theorem known_identities (h : s.nextIdentity ≤ t.nextIdentity) {i : Nat}
    (hi : (o.known s).identities i) : (o.known t).identities i :=
  hi.imp_right fun ⟨hle, hlt⟩ => ⟨hle, Nat.lt_of_lt_of_le hlt h⟩

theorem State.Grows.refl (s : State) : s.Grows o s :=
  ⟨Nat.le_refl _, Nat.le_refl _, fun _ _ _ => rfl⟩

theorem State.Grows.trans (h : s.Grows o t) (h' : t.Grows o u) : s.Grows o u where
  scopes := Nat.le_trans h.scopes h'.scopes
  identities := Nat.le_trans h.identities h'.identities
  unknown id hid hunknown := by
    have hstill : ¬ (o.known t).scopes id := by
      rintro (hr | ⟨hle, -⟩)
      · exact hunknown (.inl hr)
      · exact hunknown (.inr ⟨hle, hid⟩)
    rw [h'.unknown id (Nat.lt_of_lt_of_le hid h.scopes) hstill, h.unknown id hid hunknown]

theorem State.Leads.refl (s : State) : s.Leads o s :=
  ⟨.refl s, rfl⟩

theorem State.Leads.trans (h : s.Leads o t) (h' : t.Leads o u) : s.Leads o u :=
  ⟨h.toGrows.trans h'.toGrows, h'.current.trans h.current⟩

theorem State.Standing.later (hs : s.Standing o) (h : s.Leads o t) (ht : t.Within o) :
    t.Standing o :=
  ⟨ht, h.current ▸ known_scopes h.scopes hs.current⟩

-- What is known stays known.
theorem State.Grows.value (h : s.Grows o t) {v : Value} (hv : v.In (o.known s)) :
    v.In (o.known t) :=
  hv.mono (fun _ => known_scopes h.scopes) fun _ => known_identities h.identities

theorem State.Grows.scope (h : s.Grows o t) {scope : Scope} (hs : scope.In (o.known s)) :
    scope.In (o.known t) :=
  hs.mono (fun _ => known_scopes h.scopes) fun _ => known_identities h.identities

theorem State.Grows.values (h : s.Grows o t) {vs : List Value} (hv : ∀ v ∈ vs, v.In (o.known s)) :
    ∀ v ∈ vs, v.In (o.known t) :=
  fun v hmem => h.value (hv v hmem)

theorem stays_pure {good : State → α → Prop} {a : α} (hs : s.Within o) (ha : good s a) :
    Stays o good (pure a) s :=
  ⟨.refl s, hs, fun _ h => Except.ok.inj h ▸ ha⟩

theorem stays_throw {good : State → α → Prop} (hs : s.Within o) (h : Halt) :
    Stays o good (throw h) s :=
  ⟨.refl s, hs, fun _ h => by cases h⟩

theorem stays_fail {good : State → α → Prop} (hs : s.Within o) (token : Token)
    (fault : RuntimeFault) : Stays o good (fail token fault) s :=
  stays_throw hs _

theorem Stays.bind {good : State → α → Prop} {good' : State → β → Prop} {m : Eval α}
    {f : α → Eval β} (hm : Stays o good m s)
    (hf : ∀ a t, s.Leads o t → t.Within o → good t a → Stays o good' (f a) t) :
    Stays o good' (m >>= f) s := by
  obtain ⟨hleads, hwithin, hgood⟩ := hm
  rcases hrun : m s with ⟨h | a, t⟩ <;> rw [hrun] at hleads hwithin hgood
  · refine ⟨?_, ?_, fun b hb => ?_⟩ <;> rw [run_bind, hrun] at *
    · exact hleads
    · exact hwithin
    · cases hb
  · obtain ⟨hleads', hwithin', hgood'⟩ := hf a t hleads hwithin (hgood a rfl)
    refine ⟨?_, ?_, fun b hb => ?_⟩ <;> rw [run_bind, hrun] at *
    · exact hleads.trans hleads'
    · exact hwithin'
    · exact hgood' b hb

-- Code that goes on in the same scope still stands there.
theorem Stays.then {good : State → α → Prop} {good' : State → β → Prop} {m : Eval α}
    {f : α → Eval β} (hm : Stays o good m s) (hs : s.Standing o)
    (hf : ∀ a t, s.Leads o t → t.Standing o → good t a → Stays o good' (f a) t) :
    Stays o good' (m >>= f) s :=
  hm.bind fun a t hst ht => hf a t hst (hs.later hst ht)

theorem Stays.congr {good : State → α → Prop} {m m' : Eval α} (h : m s = m' s)
    (hm : Stays o good m' s) : Stays o good m s :=
  ⟨h ▸ hm.leads, h ▸ hm.within, h ▸ hm.answer⟩

-- Binding a name to something known changes only the scope in which it is bound.
theorem stays_defineIn (hs : s.Within o) {id : ScopeId} (hid : (o.known s).scopes id)
    (name : String) {value : Value} (hv : value.In (o.known s)) :
    Stays o (fun _ _ => True) (defineIn id name value) s := by
  have hsize : (s.heap.define id name value).size = s.heap.size := Heap.size_define ..
  have hknown : o.known { s with heap := s.heap.define id name value } = o.known s := by
    simp only [Origin.known, hsize]
  refine ⟨⟨⟨Nat.le_of_eq hsize.symm, Nat.le_refl _, fun other _ hother => ?_⟩, rfl⟩,
    ⟨Nat.le_trans hs.scopes (Nat.le_of_eq hsize.symm), hs.identities, ?_⟩, fun _ _ => trivial⟩
  · have hne : id ≠ other := fun h => hother (h ▸ hid)
    exact (Heap.getElem?_define ..).trans (if_neg hne)
  · exact hknown ▸ hs.heap.define id name hv

theorem stays_define (hs : s.Standing o) (name : String) {value : Value}
    (hv : value.In (o.known s)) : Stays o (fun _ _ => True) (define name value) s :=
  Stays.congr (run_define ..) (stays_defineIn hs.toWithin hs.current name hv)

theorem stays_lookup (hs : s.Standing o) (name : Token) :
    Stays o (fun t v => v.In (o.known t)) (lookup name) s := by
  cases hfound : s.heap.get? s.current name.lexeme with
  | none => exact (stays_fail hs.toWithin name _).congr (by rw [run_lookup, hfound, run_fail])
  | some value =>
    have hv := hs.heap.get? hs.current hfound
    exact (stays_pure hs.toWithin hv).congr (by rw [run_lookup, hfound, run_pure])

theorem stays_assign (hs : s.Standing o) (name : Token) {value : Value}
    (hv : value.In (o.known s)) : Stays o (fun _ _ => True) (assign name value) s := by
  cases howner : s.heap.owner? name.lexeme s.current with
  | none => exact (stays_fail hs.toWithin name _).congr (by rw [run_assign, howner, run_fail])
  | some owner =>
    have hknown := hs.heap.owner? hs.current howner
    exact (stays_defineIn hs.toWithin hknown name.lexeme hv).congr (by rw [run_assign, howner]; rfl)

-- A function that is declared keeps the scope in which that happens.
theorem stays_newFunction (hs : s.Standing o) (name : Token) (parameters : List Token)
    (body : List Stmt) :
    Stays o (fun t f => (Value.function f).In (o.known t)) (newFunction name parameters body) s := by
  have hgrows : s.Grows o { s with nextIdentity := s.nextIdentity + 1 } :=
    ⟨Nat.le_refl _, Nat.le_succ _, fun _ _ _ => rfl⟩
  refine ⟨⟨hgrows, rfl⟩, ⟨hs.scopes, Nat.le_trans hs.identities hgrows.identities, ?_⟩,
    fun f hf => ?_⟩
  · exact fun id scope hid hscope => hgrows.scope (hs.heap id scope hid hscope)
  · obtain rfl := Except.ok.inj hf
    exact ⟨hs.current, .inr ⟨hs.identities, Nat.lt_succ_self _⟩⟩

theorem stays_print (hs : s.Within o) (text : String) :
    Stays o (fun _ _ => True) (print text) s :=
  ⟨⟨⟨Nat.le_refl _, Nat.le_refl _, fun _ _ _ => rfl⟩, rfl⟩, ⟨hs.scopes, hs.identities, hs.heap⟩,
    fun _ _ => trivial⟩

theorem stays_readClock (hs : s.Within o) :
    Stays o (fun t v => v.In (o.known t)) readClock s :=
  ⟨⟨⟨Nat.le_refl _, Nat.le_refl _, fun _ _ _ => rfl⟩, rfl⟩, ⟨hs.scopes, hs.identities, hs.heap⟩,
    fun _ hv => Except.ok.inj hv ▸ trivial⟩

-- The depths of loops and calls have no influence on what is known.
theorem stays_inLoop {good : State → Completion → Prop} {m : Eval Completion}
    (hgood : ∀ t d c, good t c → good { t with loopDepth := d } c)
    (hm : Stays o good m s.looping) : Stays o good (inLoop m) s :=
  ⟨⟨⟨hm.leads.scopes, hm.leads.identities, hm.leads.unknown⟩, hm.leads.current⟩,
    ⟨hm.within.scopes, hm.within.identities, hm.within.heap⟩,
    fun c hc => hgood _ _ c (hm.answer c hc)⟩

theorem closed_bindNames {r : Region} {heap : Heap} (h : heap.Closed r) (scope : ScopeId)
    (names : List Token) {values : List Value} (hv : ∀ v ∈ values, v.In r) :
    (bindNames heap scope names values).Closed r := by
  induction names generalizing heap values with
  | nil => exact h
  | cons name names ih =>
    cases values with
    | nil => exact h
    | cons value values =>
      obtain ⟨hvalue, hvalues⟩ := List.forall_mem_cons.1 hv
      exact ih (h.define scope _ hvalue) hvalues

@[simp] theorem size_bindNames (heap : Heap) (scope : ScopeId) (names : List Token)
    (values : List Value) : (bindNames heap scope names values).size = heap.size := by
  induction names generalizing heap values with
  | nil => rfl
  | cons name names ih =>
    cases values with
    | nil => rfl
    | cons value values => rw [bindNames, ih, Heap.size_define]

theorem getElem?_bindNames (heap : Heap) {scope id : ScopeId} (h : scope ≠ id)
    (names : List Token) (values : List Value) :
    (bindNames heap scope names values)[id]? = heap[id]? := by
  induction names generalizing heap values with
  | nil => rfl
  | cons name names ih =>
    cases values with
    | nil => rfl
    | cons value values => rw [bindNames, ih, Heap.getElem?_define, if_neg h]

-- A new scope, around which there is one that is known, and in which known values are bound.
theorem opened (hs : s.Within o) {outer : ScopeId} (ho : (o.known s).scopes outer)
    (names : List Token) (values : List Value) (hv : ∀ v ∈ values, v.In (o.known s))
    (hheap : t.heap = bindNames (s.heap.create (some outer)) s.heap.size names values)
    (hcurrent : t.current = s.heap.size) (hidentity : t.nextIdentity = s.nextIdentity) :
    s.Grows o t ∧ t.Standing o := by
  have hsize : t.heap.size = s.heap.size + 1 := by
    rw [hheap, size_bindNames, Heap.size_create]
  have hgrows : s.Grows o t := by
    refine ⟨by omega, Nat.le_of_eq hidentity.symm, fun id hid _ => ?_⟩
    rw [hheap, getElem?_bindNames _ (Nat.ne_of_gt hid), Heap.getElem?_create,
      if_neg (Nat.ne_of_lt hid)]
  have hclosed : s.heap.Closed (o.known t) := by
    intro id scope hid hscope
    have hlt : id < s.heap.size := (Array.getElem?_eq_some_iff.1 hscope).1
    have hknown : (o.known s).scopes id := hid.imp_right fun ⟨hle, _⟩ => ⟨hle, hlt⟩
    exact hgrows.scope (hs.heap id scope hknown hscope)
  refine ⟨hgrows, ⟨Nat.le_trans hs.scopes hgrows.scopes,
    Nat.le_trans hs.identities hgrows.identities, ?_⟩, .inr ?_⟩
  · rw [hheap]
    refine closed_bindNames (hclosed.create ?_) _ _ (hgrows.values hv)
    rintro _ ⟨⟩
    exact known_scopes hgrows.scopes ho
  · rw [hcurrent, hsize]
    exact ⟨hs.scopes, Nat.lt_succ_self _⟩

theorem State.Standing.looping (hs : s.Standing o) : s.looping.Standing o :=
  ⟨⟨hs.scopes, hs.identities, hs.heap⟩, hs.current⟩

theorem State.Standing.enclosed (hs : s.Standing o) :
    s.Grows o s.enclosed ∧ s.enclosed.Standing o :=
  opened hs.toWithin hs.current [] [] (by simp) rfl rfl rfl

theorem State.Within.entered (hs : s.Within o) {f : Function} {arguments : List Value}
    (hf : (Value.function f).In (o.known s)) (ha : ∀ v ∈ arguments, v.In (o.known s)) :
    s.Grows o (s.entered f arguments) ∧ (s.entered f arguments).Standing o :=
  opened hs hf.1 f.parameters arguments ha rfl rfl rfl

theorem stays_enclosed (hs : s.Standing o)
    (hm : s.enclosed.Standing o → Stays o (fun t c => c.In (o.known t)) m s.enclosed) :
    Stays o (fun t c => c.In (o.known t)) (enclosed m) s := by
  obtain ⟨hgrows, hstanding⟩ := hs.enclosed
  obtain ⟨hleads, hwithin, hgood⟩ := hm hstanding
  have hall := hgrows.trans hleads.toGrows
  exact ⟨⟨⟨hall.scopes, hall.identities, hall.unknown⟩, rfl⟩,
    ⟨hwithin.scopes, hwithin.identities, hwithin.heap⟩, hgood⟩

-- A call goes on where it stands, but its body starts from the scope that the function keeps.
theorem stays_enter (hs : s.Within o) {run : List Stmt → Eval Completion} {f : Function}
    {arguments : List Value} (hf : (Value.function f).In (o.known s))
    (ha : ∀ v ∈ arguments, v.In (o.known s))
    (hm : (s.entered f arguments).Standing o →
      Stays o (fun t c => c.In (o.known t)) (run f.body) (s.entered f arguments)) :
    Stays o (fun t c => c.In (o.known t)) (enter run f arguments) s := by
  obtain ⟨hgrows, hstanding⟩ := hs.entered hf ha
  obtain ⟨hleads, hwithin, hgood⟩ := hm hstanding
  have hall := hgrows.trans hleads.toGrows
  refine ⟨?_, ?_, ?_⟩ <;> rw [run_enter]
  · exact ⟨⟨hall.scopes, hall.identities, hall.unknown⟩, rfl⟩
  · exact ⟨hwithin.scopes, hwithin.identities, hwithin.heap⟩
  · exact hgood

end

-- Calls of known functions with known arguments.
def StayingCalls (o : Origin) (invoke : Function → List Value → Eval Value) : Prop :=
  ∀ (s : State) f arguments, s.Within o → (Value.function f).In (o.known s) →
    (∀ v ∈ arguments, v.In (o.known s)) →
    Stays o (fun t v => v.In (o.known t)) (invoke f arguments) s

section

variable {o : Origin} {invoke : Function → List Value → Eval Value} {s : State}

theorem stays_applyBinary (hs : s.Within o) (left : Value) (operator : Token) (right : Value) :
    Stays o (fun t v => v.In (o.known t)) (applyBinary left operator right) s := by
  unfold applyBinary
  cases hop : Value.binary? operator.kind with
  | none => exact stays_throw hs _
  | some operation =>
    have hresult := Value.isResult_binary hop left right
    dsimp only
    split
    · exact stays_fail hs operator _
    · refine stays_pure hs ?_
      cases hv : operation left right with
      | primitive p | function f =>
        rw [hv] at hresult
        exact absurd hresult not_false
      | _ => trivial

theorem stays_applyUnary (hs : s.Within o) (operator : Token) (operand : Value) :
    Stays o (fun t v => v.In (o.known t)) (applyUnary operator operand) s := by
  unfold applyUnary
  cases hop : Value.unary? operator.kind with
  | none => exact stays_throw hs _
  | some operation =>
    have hresult := Value.isResult_unary hop operand
    refine stays_pure hs ?_
    cases hv : operation operand with
    | primitive p | function f =>
      rw [hv] at hresult
      exact absurd hresult not_false
    | _ => trivial

theorem stays_applyCall (hi : StayingCalls o invoke) (hs : s.Within o) {callee : Value}
    (paren : Token) {arguments : List Value} (hf : callee.In (o.known s))
    (ha : ∀ v ∈ arguments, v.In (o.known s)) :
    Stays o (fun t v => v.In (o.known t)) (applyCall invoke callee paren arguments) s := by
  unfold applyCall
  cases callee with
  | function f =>
    dsimp only
    split
    · exact hi s f arguments hs hf ha
    · exact stays_fail hs paren _
  | primitive p =>
    dsimp only
    split
    · cases p with
      | clock => exact stays_readClock hs
      | inert name identity native => exact stays_pure hs trivial
    · exact stays_fail hs paren _
  | _ => exact stays_fail hs paren _

mutual

theorem stays_evalWith {s : State} (hi : StayingCalls o invoke) (hs : s.Standing o) (e : Expr) :
    Stays o (fun t v => v.In (o.known t)) (evalWith invoke e) s := by
  cases e with
  | assign name value =>
    refine (stays_evalWith hi hs value).then hs fun v t _ ht hv => ?_
    exact (stays_assign ht name hv).bind fun _ u hu hwithin _ =>
      stays_pure hwithin (hu.toGrows.value hv)
  | binary left operator right =>
    refine (stays_evalWith hi hs left).then hs fun l t _ ht _ => ?_
    exact (stays_evalWith hi ht right).bind fun r u _ hu _ =>
      stays_applyBinary hu l operator r
  | call callee paren arguments =>
    refine (stays_evalWith hi hs callee).then hs fun f t _ ht hf => ?_
    exact (stays_evalAllWith hi ht arguments).bind fun args u hu hwithin ha =>
      stays_applyCall hi hwithin paren (hu.toGrows.value hf) ha
  | grouping inner => exact stays_evalWith hi hs inner
  | literal value => exact stays_pure hs.toWithin (value.value_in _)
  | logical left operator right =>
    refine (stays_evalWith hi hs left).then hs fun l t _ ht hl => ?_
    split
    · exact stays_pure ht.toWithin hl
    · exact stays_evalWith hi ht right
  | unary operator operand =>
    exact (stays_evalWith hi hs operand).bind fun v t _ ht _ => stays_applyUnary ht operator v
  | «variable» name => exact stays_lookup hs name

theorem stays_evalAllWith {s : State} (hi : StayingCalls o invoke) (hs : s.Standing o) (es : List Expr) :
    Stays o (fun t vs => ∀ v ∈ vs, v.In (o.known t)) (evalAllWith invoke es) s := by
  cases es with
  | nil => exact stays_pure hs.toWithin (by simp)
  | cons e es =>
    refine (stays_evalWith hi hs e).then hs fun v t _ ht hv => ?_
    exact (stays_evalAllWith hi ht es).bind fun vs u hu hwithin hvs =>
      stays_pure hwithin (List.forall_mem_cons.2 ⟨hu.toGrows.value hv, hvs⟩)

end

-- One round after the other, and the last one ends the loop.
theorem stays_iterate {condition : Eval Value} {body : Eval Completion} (hs : s.Standing o)
    (hc : ∀ t : State, t.Standing o → Stays o (fun t v => v.In (o.known t)) condition t)
    (hb : ∀ t : State, t.Standing o → Stays o (fun t c => c.In (o.known t)) body t)
    (rounds : Nat) : Stays o (fun t c => c.In (o.known t)) (iterate condition body rounds) s := by
  induction rounds generalizing s with
  | zero => exact stays_throw hs.toWithin _
  | succ rounds ih =>
    refine (hc s hs).then hs fun v t _ ht _ => ?_
    split
    · refine (hb t ht).then ht fun c u _ hu hgood => ?_
      cases c with
      | normal => exact ih hu
      | broke => exact stays_pure hu.toWithin trivial
      | returned value => exact stays_pure hu.toWithin hgood
    · exact stays_pure ht.toWithin trivial

mutual

theorem stays_execWith {s : State} (hi : StayingCalls o invoke) (rounds : Nat) (hs : s.Standing o)
    (st : Stmt) : Stays o (fun t c => c.In (o.known t)) (execWith invoke rounds st) s := by
  cases st with
  | block body => exact stays_enclosed hs fun hinner => stays_execAllWith hi rounds hinner body
  | breakLoop keyword =>
    refine Stays.congr (run_get_bind ..) ?_
    split
    · exact stays_fail hs.toWithin keyword _
    · exact stays_pure hs.toWithin trivial
  | expression value =>
    exact (stays_evalWith hi hs value).bind fun _ t _ ht _ => stays_pure ht trivial
  | function name parameters body =>
    refine (stays_newFunction hs name parameters body).then hs fun f t _ ht hf => ?_
    exact (stays_define ht name.lexeme hf).bind fun _ u _ hu _ => stays_pure hu trivial
  | branch condition yes no =>
    cases no with
    | none =>
      refine (stays_evalWith hi hs condition).then hs fun v t _ ht _ => ?_
      split
      · exact stays_execWith hi rounds ht yes
      · exact stays_pure ht.toWithin trivial
    | some no =>
      refine (stays_evalWith hi hs condition).then hs fun v t _ ht _ => ?_
      split
      · exact stays_execWith hi rounds ht yes
      · exact stays_execWith hi rounds ht no
  | print value =>
    refine (stays_evalWith hi hs value).bind fun v t _ ht _ => ?_
    cases v.display with
    | error u => exact stays_throw ht _
    | ok text => exact (stays_print ht text).bind fun _ u _ hu _ => stays_pure hu trivial
  | returnFrom keyword value =>
    refine Stays.congr (run_get_bind ..) ?_
    cases value with
    | none =>
      split
      · exact stays_fail hs.toWithin keyword _
      · exact stays_pure hs.toWithin trivial
    | some value =>
      split
      · exact stays_fail hs.toWithin keyword _
      · exact (stays_evalWith hi hs value).bind fun v t _ ht hv => stays_pure ht hv
  | declare name initializer =>
    cases initializer with
    | none =>
      have hnil : Value.nil.In (o.known s) := trivial
      exact (stays_define hs name.lexeme hnil).bind fun _ t _ ht _ => stays_pure ht trivial
    | some initializer =>
      refine (stays_evalWith hi hs initializer).then hs fun v t _ ht hv => ?_
      exact (stays_define ht name.lexeme hv).bind fun _ u _ hu _ => stays_pure hu trivial
  | loop condition body =>
    exact stays_inLoop (fun _ _ _ h => h) (stays_iterate hs.looping
      (fun t ht => stays_evalWith hi ht condition) (fun t ht => stays_execWith hi rounds ht body)
      rounds)
  | jump kind => cases kind <;> exact stays_pure hs.toWithin trivial

theorem stays_execAllWith {s : State} (hi : StayingCalls o invoke) (rounds : Nat) (hs : s.Standing o)
    (ss : List Stmt) : Stays o (fun t c => c.In (o.known t)) (execAllWith invoke rounds ss) s := by
  cases ss with
  | nil => exact stays_pure hs.toWithin trivial
  | cons st ss =>
    refine (stays_execWith hi rounds hs st).then hs fun c t _ ht hc => ?_
    cases c with
    | normal => exact stays_execAllWith hi rounds ht ss
    | broke => exact stays_pure ht.toWithin trivial
    | returned value => exact stays_pure ht.toWithin hc

end

theorem staying_invoke (o : Origin) (fuel : Nat) : StayingCalls o (Run.invoke fuel) := by
  induction fuel with
  | zero => exact fun _ _ _ hs _ _ => stays_throw hs _
  | succ fuel ih =>
    intro s f arguments hs hf ha
    rw [Run.invoke, callWith_eq]
    refine (stays_enter hs hf ha fun hinner => stays_execAllWith ih fuel hinner f.body).bind
      fun c t _ ht hc => ?_
    cases c with
    | normal => exact stays_pure ht trivial
    | broke => exact stays_throw ht _
    | returned value => exact stays_pure ht hc

theorem stays_execTop (fuel : Nat) {s : State} (hs : s.Standing o) (program : List Stmt) :
    Stays o (fun _ _ => True) (execTop fuel program) s := by
  induction program generalizing s with
  | nil => exact stays_pure hs.toWithin trivial
  | cons st ss ih =>
    refine (stays_execWith (staying_invoke o fuel) fuel hs st).then hs fun c t _ ht _ => ?_
    cases c with
    | normal => exact ih ht
    | broke | returned _ => exact stays_throw ht.toWithin _

end

end Lox.Run
