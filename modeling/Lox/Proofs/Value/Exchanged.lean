import Lox.Proofs.Value.Names
import Lox.Proofs.Value.Region
import Lox.Proofs.Value.Paired
import Lox.Proofs.Value.Twins
import Mathlib.Data.List.Forall2
import Mathlib.Logic.Equiv.Basic

namespace Lox

-- A statement that holds no others.
def Stmt.Leaf : Stmt → Prop
  | .block _ => False
  | .function _ _ _ => False
  | .branch _ _ _ => False
  | .loop _ _ => False
  | _ => True

mutual

-- Statements that differ only in the order of neighbouring function declarations with different
-- names, wherever in them these stand.
inductive Stmt.Exchanged : Stmt → Stmt → Prop
  | leaf {s : Stmt} (h : s.Leaf) : Exchanged s s
  | block {body body' : List Stmt} (h : AllExchanged body body') :
    Exchanged (.block body) (.block body')
  | function {name : Token} {parameters : List Token} {body body' : List Stmt}
    (h : AllExchanged body body') :
    Exchanged (.function name parameters body) (.function name parameters body')
  | branch {condition : Expr} {yes yes' : Stmt} (h : Exchanged yes yes') :
    Exchanged (.branch condition yes none) (.branch condition yes' none)
  | branchElse {condition : Expr} {yes yes' no no' : Stmt} (h : Exchanged yes yes')
    (h' : Exchanged no no') :
    Exchanged (.branch condition yes (some no)) (.branch condition yes' (some no'))
  | loop {condition : Expr} {body body' : Stmt} (h : Exchanged body body') :
    Exchanged (.loop condition body) (.loop condition body')

inductive Stmt.AllExchanged : List Stmt → List Stmt → Prop
  | nil : AllExchanged [] []
  | cons {s s' : Stmt} {ss ss' : List Stmt} (h : Exchanged s s') (hs : AllExchanged ss ss') :
    AllExchanged (s :: ss) (s' :: ss')
  | swap {name name' : Token} {parameters parameters' : List Token}
    {body body' others others' ss ss' : List Stmt} (hne : name.lexeme ≠ name'.lexeme)
    (h : AllExchanged body body') (h' : AllExchanged others others') (hs : AllExchanged ss ss') :
    AllExchanged (.function name parameters body :: .function name' parameters' others :: ss)
      (.function name' parameters' others' :: .function name parameters body' :: ss')

end

mutual

theorem Stmt.Exchanged.refl (s : Stmt) : s.Exchanged s := by
  cases s with
  | block body => exact .block (.refl body)
  | function name parameters body => exact .function (.refl body)
  | branch condition yes no =>
    cases no with
    | none => exact .branch (.refl yes)
    | some no => exact .branchElse (.refl yes) (.refl no)
  | loop condition body => exact .loop (.refl body)
  | _ => exact .leaf trivial

theorem Stmt.AllExchanged.refl (ss : List Stmt) : Stmt.AllExchanged ss ss := by
  cases ss with
  | nil => exact .nil
  | cons s ss => exact .cons (.refl s) (.refl ss)

end

-- Which functions of two heaps stand for each other, among so many that there are in each.
structure Renaming where
  size : Nat
  perm : Equiv.Perm Nat

namespace Renaming

-- Functions that stand for each other keep doing so.
structure Grows (r r' : Renaming) : Prop where
  size : r.size ≤ r'.size
  perm : ∀ i < r.size, r'.perm i = r.perm i

theorem Grows.refl (r : Renaming) : r.Grows r :=
  ⟨Nat.le_refl _, fun _ _ => rfl⟩

theorem Grows.trans {r r' r'' : Renaming} (h : r.Grows r') (h' : r'.Grows r'') : r.Grows r'' :=
  ⟨Nat.le_trans h.size h'.size, fun i hi =>
    (h'.perm i (Nat.lt_of_lt_of_le hi h.size)).trans (h.perm i hi)⟩

-- Functions that are not there yet stand for themselves.
def Fresh (r : Renaming) : Prop :=
  ∀ i, r.size ≤ i → r.perm i = i

-- One more function on each side.
def next (r : Renaming) : Renaming :=
  ⟨r.size + 1, r.perm⟩

-- Two more functions, in the other order on the right.
def crossed (r : Renaming) : Renaming :=
  ⟨r.size + 2, (Equiv.swap r.size (r.size + 1)).trans r.perm⟩

theorem grows_next (r : Renaming) : r.Grows r.next :=
  ⟨Nat.le_succ _, fun _ _ => rfl⟩

theorem Fresh.next {r : Renaming} (h : r.Fresh) : r.next.Fresh :=
  fun i hi => h i (Nat.le_trans (Nat.le_succ _) hi)

theorem grows_crossed (r : Renaming) : r.Grows r.crossed := by
  refine ⟨Nat.le_add_right _ _, fun i hi => ?_⟩
  have hfirst : i ≠ r.size := by omega
  have hsecond : i ≠ r.size + 1 := by omega
  simp [crossed, Equiv.swap_apply_of_ne_of_ne hfirst hsecond]

theorem Fresh.crossed {r : Renaming} (h : r.Fresh) : r.crossed.Fresh := by
  intro i hi
  have hle : r.size + 2 ≤ i := hi
  have hfirst : i ≠ r.size := by omega
  have hsecond : i ≠ r.size + 1 := by omega
  simp [Renaming.crossed, Equiv.swap_apply_of_ne_of_ne hfirst hsecond, h i (by omega)]

theorem Fresh.crossed_first {r : Renaming} (h : r.Fresh) :
    r.crossed.perm r.size = r.size + 1 := by
  simp [Renaming.crossed, h (r.size + 1) (by omega)]

theorem Fresh.crossed_second {r : Renaming} (h : r.Fresh) :
    r.crossed.perm (r.size + 1) = r.size := by
  simp [Renaming.crossed, h r.size (Nat.le_refl _)]

end Renaming

-- The same value that is no function, or functions that stand for each other. Their bodies may
-- differ in the order of declarations.
inductive Value.Exchanged (r : Renaming) : Value → Value → Prop
  | plain {v : Value} (h : ∀ f, v ≠ .function f) : Exchanged r v v
  | function {name : Token} {parameters : List Token} {body body' : List Stmt} {scope : ScopeId}
    {i j : Nat} (hi : i < r.size) (hj : r.perm i = j) (hbody : Stmt.AllExchanged body body') :
    Exchanged r (.function ⟨i, name, parameters, body, scope⟩)
      (.function ⟨j, name, parameters, body', scope⟩)

namespace Value.Exchanged

variable {r r' : Renaming} {v w : Value}

theorem nil : Exchanged r .nil .nil :=
  .plain fun _ h => by cases h

theorem mono (hr : r.Grows r') (h : v.Exchanged r w) : v.Exchanged r' w := by
  cases h with
  | plain h => exact .plain h
  | function hi hj hbody =>
    exact .function (Nat.lt_of_lt_of_le hi hr.size) ((hr.perm _ hi).trans hj) hbody

theorem twins (h : v.Exchanged r w) : v.Twins (fun i j => r.perm i = j) w := by
  cases h with
  | plain h => exact .plain h
  | function hi hj hbody => exact .function rfl hj

theorem binary {v' w' : Value} {kind : TokenKind} {operation : Value → Value → Value}
    (hop : binary? kind = some operation) (hv : v.Exchanged r v') (hw : w.Exchanged r w') :
    operation v' w' = operation v w := by
  refine Twins.binary (fun {i i' j j'} hi hi' => ?_) hop hv.twins hw.twins
  rw [← hi, ← hi', r.perm.injective.eq_iff]

end Value.Exchanged

theorem Literal.exchanged_value (r : Renaming) (literal : Literal) :
    literal.value.Exchanged r literal.value := by
  cases literal <;> exact .plain (fun _ h => by cases h)

theorem Bindings.keys_put (name : String) (value : Value) (bindings : Bindings) :
    (put name value bindings).map Prod.fst =
      if name ∈ bindings.map Prod.fst then bindings.map Prod.fst
      else bindings.map Prod.fst ++ [name] := by
  induction bindings with
  | nil => simp [put]
  | cons binding rest ih =>
    obtain ⟨key, old⟩ := binding
    by_cases hkey : key = name
    · subst hkey
      simp [put]
    · have hmem : name ∈ (key :: rest.map Prod.fst) ↔ name ∈ rest.map Prod.fst := by
        simp [Ne.symm hkey]
      rw [put, if_neg hkey, List.map_cons, List.map_cons, ih, if_congr hmem rfl rfl]
      split <;> rfl

theorem Bindings.nodup_put {bindings : Bindings} (h : (bindings.map Prod.fst).Nodup) (name : String)
    (value : Value) : ((put name value bindings).map Prod.fst).Nodup := by
  rw [keys_put]
  split
  · exact h
  · next hnew =>
    rw [List.nodup_append]
    refine ⟨h, List.pairwise_singleton _ name, fun key hkey other hother => ?_⟩
    obtain rfl := List.mem_singleton.1 hother
    exact ne_of_mem_of_not_mem hkey hnew

-- Scopes that bind the same names, each once, to values that stand for each other.
structure Scope.Exchanged (r : Renaming) (x y : Scope) : Prop where
  enclosing : x.enclosing = y.enclosing
  values : ∀ name, Option.Rel (Value.Exchanged r) (x.find? name) (y.find? name)
  once : (x.bindings.map Prod.fst).Nodup
  once' : (y.bindings.map Prod.fst).Nodup

namespace Scope.Exchanged

variable {r r' : Renaming} {x y : Scope}

theorem mono (hr : r.Grows r') (h : x.Exchanged r y) : x.Exchanged r' y :=
  ⟨h.enclosing, fun name => (h.values name).imp fun _ _ _ _ => .mono hr, h.once, h.once'⟩

theorem define (h : x.Exchanged r y) (name : String) {v w : Value} (hv : v.Exchanged r w) :
    (x.define name v).Exchanged r (y.define name w) := by
  refine ⟨h.enclosing, fun other => ?_, Bindings.nodup_put h.once name v,
    Bindings.nodup_put h.once' name w⟩
  rw [find?_define, find?_define]
  split
  · exact .some hv
  · exact h.values other

-- Two names can be bound in either order.
theorem define_define (h : x.Exchanged r y) {first second : String} (hne : first ≠ second)
    {v v' w w' : Value} (hv : v.Exchanged r v') (hw : w.Exchanged r w') :
    ((x.define first v).define second w).Exchanged r ((y.define second w').define first v') := by
  refine ⟨h.enclosing, fun other => ?_, Bindings.nodup_put (Bindings.nodup_put h.once _ _) _ _,
    Bindings.nodup_put (Bindings.nodup_put h.once' _ _) _ _⟩
  simp only [find?_define]
  by_cases hfirst : other = first
  · subst hfirst
    rw [if_neg hne, if_pos rfl, if_pos rfl]
    exact .some hv
  · rw [if_neg hfirst, if_neg hfirst]
    split
    · exact .some hw
    · exact h.values other

end Scope.Exchanged

-- Heaps with the same scopes.
structure Heap.Exchanged (r : Renaming) (g h : Heap) : Prop where
  size : g.size = h.size
  scopes : ∀ id : ScopeId, Option.Rel (Scope.Exchanged r) g[id]? h[id]?

namespace Heap.Exchanged

variable {r r' : Renaming} {g h : Heap}

theorem mono (hr : r.Grows r') (hp : g.Exchanged r h) : g.Exchanged r' h :=
  ⟨hp.size, fun id => (hp.scopes id).imp fun _ _ _ _ => .mono hr⟩

theorem owner?_eq (hp : g.Exchanged r h) (name : String) (id : ScopeId) :
    g.owner? name id = h.owner? name id := by
  induction id using Nat.strongRecOn with
  | ind id ih =>
    have hscopes := hp.scopes id
    rw [owner?, owner?]
    generalize g[id]? = x, h[id]? = y at hscopes
    cases hscopes with
    | none => rfl
    | @some x y hscope =>
      dsimp only
      rw [(hscope.values name).isSome_eq, hscope.enclosing]
      split
      · rfl
      · split
        · rfl
        · next outer _ =>
          split
          · next hlt => exact ih outer hlt
          · rfl

theorem get? (hp : g.Exchanged r h) (id : ScopeId) (name : String) :
    Option.Rel (Value.Exchanged r) (g.get? id name) (h.get? id name) := by
  simp only [Heap.get?, Option.bind_eq_bind, hp.owner?_eq]
  cases h.owner? name id with
  | none => exact .none
  | some owner => exact (hp.scopes owner).bind fun _ _ hscope => hscope.values name

theorem define (hp : g.Exchanged r h) (id : ScopeId) (name : String) {v w : Value}
    (hv : v.Exchanged r w) : Heap.Exchanged r (g.define id name v) (h.define id name w) := by
  refine ⟨by simpa using hp.size, fun other => ?_⟩
  rw [getElem?_define, getElem?_define]
  split
  · exact (hp.scopes other).map fun _ _ hscope => hscope.define name hv
  · exact hp.scopes other

theorem define_define (hp : g.Exchanged r h) (id : ScopeId) {first second : String}
    (hne : first ≠ second) {v v' w w' : Value} (hv : v.Exchanged r v') (hw : w.Exchanged r w') :
    Heap.Exchanged r ((g.define id first v).define id second w)
      ((h.define id second w').define id first v') := by
  refine ⟨by simpa using hp.size, fun other => ?_⟩
  simp only [getElem?_define]
  split
  · rw [Option.map_map, Option.map_map]
    exact (hp.scopes other).map fun _ _ hscope => hscope.define_define hne hv hw
  · exact hp.scopes other

theorem create (hp : g.Exchanged r h) (enclosing : Option ScopeId) :
    Heap.Exchanged r (g.create enclosing) (h.create enclosing) := by
  refine ⟨by simpa using hp.size, fun id => ?_⟩
  rw [getElem?_create, getElem?_create, hp.size]
  split
  · exact .some ⟨rfl, fun _ => .none, List.nodup_nil, List.nodup_nil⟩
  · exact hp.scopes id

end Heap.Exchanged

end Lox
