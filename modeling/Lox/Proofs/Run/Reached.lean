import Lox.Proofs.Run.Bound
import Mathlib.Data.List.Induction

namespace Lox.Run

-- The scopes that some scopes lead to in a state, and those that were created up to another one.
def State.Reached (s t : State) (roots : ScopeId → Prop) (id : ScopeId) : Prop :=
  s.heap.Reaches roots id ∨ s.heap.size ≤ id ∧ id < t.heap.size

-- What a run touches. It changes no scope that the one in which it stands does not lead to. All that
-- is bound in the end was bound before or at some moment of it; and every function that is bound at
-- any moment, or that it carries as it ends, keeps a scope that was reached or that is new.
structure Touches (start : Moment) (ended : State) (carried : Value → Prop) : Prop where
  unreached : ∀ id < start.state.heap.size,
    ¬ start.state.heap.Reaches (· = start.state.current) id →
      ended.heap[id]? = start.state.heap[id]?
  bound : ∀ id name v, ended.heap.Binds id name v →
    start.state.heap.Binds id name v ∨ start.Bound id name v
  kept : ∀ m t id name f, start.Leads m → m.Binds t id name (.function f) →
    start.state.Reached t (· = start.state.current) f.scope
  carried : ∀ f, carried (.function f) →
    start.state.Reached ended (· = start.state.current) f.scope

-- The moment at which only certain scopes are known.
def State.since (s : State) (scopes : ScopeId → Prop) : Origin :=
  ⟨.ofScopes scopes, s.heap.size, s.nextIdentity⟩

section

variable {α : Type} {roots p : ScopeId → Prop} {s : State}

theorem known_since {id : ScopeId} : ((s.since p).known s).scopes id ↔ p id := by
  refine ⟨fun hid => ?_, .inl⟩
  obtain hp | ⟨hle, hlt⟩ := hid
  · exact hp
  · exact absurd hlt (Nat.not_lt.2 hle)

theorem within_since (h : s.heap.Closed (.ofScopes p)) : s.Within (s.since p) := by
  refine ⟨Nat.le_refl _, Nat.le_refl _, fun id scope hid hscope => ?_⟩
  exact (h id scope (known_since.1 hid) hscope).mono (fun _ => known_since.2) fun _ _ => .inl trivial

-- The moment at which code starts from the scope in which it stands.
def State.origin (s : State) : Origin :=
  s.since (s.heap.Reaches (· = s.current))

theorem standing_origin (s : State) : s.Standing s.origin :=
  ⟨within_since (s.heap.closed_reaches _), known_since.2 (.root rfl)⟩

theorem Stays.touches {good : State → α → Prop} {m : Eval α} (start : Moment)
    (h : Stays start.state.origin good m start.state) (hstart : start.Standing start.state.origin)
    (hadding : Adding start.Bound m start.state) {carried : Value → Prop}
    (hc : ∀ f, carried (.function f) → (start.state.origin.known (m start.state).2).scopes f.scope) :
    Touches start (m start.state).2 carried where
  unreached id hid hnot := h.leads.unknown id hid fun hknown => hnot (known_since.1 hknown)
  bound := hadding
  kept _ _ _ _ _ hleads hbinds := (hbinds.known (hleads.standing hstart).2).2.2.1
  carried := hc

end

-- A function, called with some arguments.
structure Call where
  function : Function
  arguments : List Value

-- The scopes that a call starts from.
def Call.Holds (c : Call) (id : ScopeId) : Prop :=
  ∃ f, (f = c.function ∨ .function f ∈ c.arguments) ∧ f.scope = id

def heldBy (calls : List Call) (id : ScopeId) : Prop :=
  ∃ c ∈ calls, c.Holds id

-- The state after some calls, one after the other, however each of them ends.
def State.after (fuel : Nat) (s : State) (calls : List Call) : State :=
  calls.foldl (fun s c => (invoke fuel c.function c.arguments s).2) s

section

variable {p : ScopeId → Prop} {s t : State} {fuel : Nat}

theorem stays_call (fuel : Nat) (ht : t.Within (s.since p)) {c : Call}
    (hc : ∀ id, c.Holds id → ((s.since p).known t).scopes id) :
    Stays (s.since p) (fun u v => v.In ((s.since p).known u)) (invoke fuel c.function c.arguments)
      t := by
  refine staying_invoke _ fuel t c.function c.arguments ht
    ⟨hc _ ⟨c.function, .inl rfl, rfl⟩, .inl trivial⟩ fun v hv => ?_
  cases v with
  | function f => exact ⟨hc _ ⟨f, .inr hv, rfl⟩, .inl trivial⟩
  | _ => trivial

-- Calls that start from what is known do to the rest what one of them does: nothing.
theorem grows_after (ht : t.Within (s.since p)) {calls : List Call}
    (hc : ∀ id, heldBy calls id → ((s.since p).known t).scopes id) :
    t.Grows (s.since p) (t.after fuel calls) := by
  induction calls generalizing t with
  | nil => exact .refl t
  | cons c calls ih =>
    have hcall := stays_call fuel ht fun id hid => hc id ⟨c, by simp, hid⟩
    have hrest := ih hcall.within fun id ⟨d, hd, hid⟩ =>
      known_scopes hcall.leads.scopes (hc id ⟨d, by simp [hd], hid⟩)
    exact hcall.leads.toGrows.trans hrest

-- Scopes of which some are known to calls of the one kind and some to those of the other, and certain
-- ones to both.
structure Apart (common mine others : ScopeId → Prop) (s : State) : Prop where
  mineClosed : s.heap.Closed (.ofScopes mine)
  othersClosed : s.heap.Closed (.ofScopes others)
  meet : ∀ id, common id ↔ mine id ∧ others id
  present : ∀ id, mine id ∨ others id → id < s.heap.size

variable {common mine others : ScopeId → Prop}

theorem Apart.symm (h : Apart common mine others s) : Apart common others mine s :=
  ⟨h.othersClosed, h.mineClosed, fun id => (h.meet id).trans and_comm,
    fun id hid => h.present id hid.symm⟩

-- A call that starts from scopes of the others changes none of mine, but for common ones. What it
-- creates is theirs, if the common scopes lead nowhere else.
theorem Apart.call (h : Apart common mine others s) {c : Call}
    (hc : ∀ id, c.Holds id → others id) {t : State}
    (ht : (invoke fuel c.function c.arguments s).2 = t)
    (hcommon : t.heap.Closed (.ofScopes common)) :
    (∀ id, mine id → ¬ common id → t.heap[id]? = s.heap[id]?) ∧
      Apart common mine ((s.since others).known t).scopes t := by
  subst ht
  obtain ⟨hleads, hwithin, -⟩ := stays_call fuel (within_since h.othersClosed)
    fun id hid => known_since.2 (hc id hid)
  have hmine : ∀ id, mine id → ¬ common id →
      (invoke fuel c.function c.arguments s).2.heap[id]? = s.heap[id]? := fun id hid hnot =>
    hleads.unknown id (h.present id (.inl hid)) fun hknown =>
      hnot ((h.meet id).2 ⟨hid, known_since.1 hknown⟩)
  refine ⟨hmine, fun id scope hid hscope => ?_, hwithin.heap.ofScopes, fun id => ?_,
    fun id hid => ?_⟩
  · by_cases hboth : common id
    · exact (hcommon id scope hboth hscope).mono (fun other ho => ((h.meet other).1 ho).1)
        fun _ _ => trivial
    · exact h.mineClosed id scope hid (hmine id hid hboth ▸ hscope)
  · refine (h.meet id).trans (and_congr_right fun hm => ⟨.inl, fun ho => ho.resolve_right ?_⟩)
    exact fun ⟨hle, _⟩ => absurd (h.present id (.inl hm)) (Nat.not_lt.2 hle)
  · obtain hm | ho | ⟨-, hlt⟩ := hid
    · exact Nat.lt_of_lt_of_le (h.present id (.inl hm)) hleads.scopes
    · exact Nat.lt_of_lt_of_le (h.present id (.inr ho)) hleads.scopes
    · exact hlt

theorem after_concat (calls : List Call) (c : Call) :
    s.after fuel (calls ++ [c]) =
      (invoke fuel c.function c.arguments (s.after fuel calls)).2 := by
  simp [State.after]

-- What is known to either side grows only with its own calls, so that they stay apart.
theorem Apart.after (fuel : Nat) (h : Apart common mine others s) (calls : List Call)
    (hcalls : ∀ c ∈ calls, (∀ id, c.Holds id → mine id) ∨ ∀ id, c.Holds id → others id)
    (hcommon : ∀ before, before <+: calls →
      (s.after fuel before).heap.Closed (.ofScopes common)) :
    ∃ mine' others', (∀ id, mine id → mine' id) ∧ (∀ id, others id → others' id) ∧
      Apart common mine' others' (s.after fuel calls) := by
  induction calls using List.reverseRecOn with
  | nil => exact ⟨mine, others, fun _ h => h, fun _ h => h, h⟩
  | append_singleton calls c ih =>
    obtain ⟨mine', others', hm, ho, hapart⟩ := ih (fun d hd => hcalls d (by simp [hd]))
      fun before hb => hcommon before (hb.trans (List.prefix_append ..))
    have hclosed := hcommon _ (List.prefix_refl _)
    -- only the side of the last call comes to know what that created
    obtain hc | hc := hcalls c (by simp)
    · have hstep := hapart.symm.call (fun id hid => hm id (hc id hid)) (after_concat calls c).symm
        hclosed
      exact ⟨_, others', fun id hid => .inl (hm id hid), ho, hstep.2.symm⟩
    · have hstep := hapart.call (fun id hid => ho id (hc id hid)) (after_concat calls c).symm
        hclosed
      exact ⟨mine', _, hm, fun id hid => .inl (ho id hid), hstep.2⟩

theorem heldBy_append (mine others : List Call) (id : ScopeId) :
    heldBy (mine ++ others) id ↔ heldBy mine id ∨ heldBy others id := by
  simp only [heldBy, List.mem_append, or_and_right, exists_or]

-- The scopes that calls of either kind lead to.
def State.Shared (s : State) (mine others : List Call) (id : ScopeId) : Prop :=
  s.heap.Reaches (heldBy mine) id ∧ s.heap.Reaches (heldBy others) id

-- Calls of closures of two kinds. As long as what both can reach leads nowhere else, a call of the
-- one kind changes nothing that only the other can reach.
theorem calls_apart {mine others calls : List Call} (hcalls : ∀ c ∈ calls, c ∈ mine ∨ c ∈ others)
    (hpresent : ∀ id, s.heap.Reaches (heldBy (mine ++ others)) id → id < s.heap.size)
    (hshared : ∀ before, before <+: calls →
      (s.after fuel before).heap.Closed (.ofScopes (s.Shared mine others)))
    {before : List Call} {c : Call} (hc : before ++ [c] <+: calls) (ho : c ∈ others) {id : ScopeId}
    (hid : (s.after fuel before).heap.Reaches (heldBy mine) id)
    (hnot : ¬ s.Shared mine others id) :
    (s.after fuel (before ++ [c])).heap[id]? = (s.after fuel before).heap[id]? := by
  have hstart : Apart (s.Shared mine others) (s.heap.Reaches (heldBy mine))
      (s.heap.Reaches (heldBy others)) s := by
    refine ⟨s.heap.closed_reaches _, s.heap.closed_reaches _, fun id => Iff.rfl,
      fun id hid => hpresent id ?_⟩
    obtain hm | ho := hid
    · exact hm.mono fun id h => (heldBy_append ..).2 (.inl h)
    · exact ho.mono fun id h => (heldBy_append ..).2 (.inr h)
  have hheld : ∀ {side : List Call} {c : Call}, c ∈ side → ∀ id, c.Holds id →
      s.heap.Reaches (heldBy side) id := fun hc id hid => .root ⟨_, hc, hid⟩
  have hbefore : before <+: calls := (List.prefix_append ..).trans hc
  obtain ⟨mine', others', hm, hothers, hapart⟩ := hstart.after fuel before
    (fun d hd => (hcalls d (hbefore.subset hd)).imp hheld hheld)
    fun before' hb => hshared before' (hb.trans hbefore)
  have hmine : mine' id :=
    hapart.mineClosed.of_reaches (fun id ⟨d, hd, hid⟩ => hm id (hheld hd id hid)) hid
  exact (hapart.call (fun id hid => hothers id (hheld ho id hid)) (after_concat before c).symm
    (hshared _ hc)).1 id hmine hnot

end

-- Running code touches only what it can reach from the current scope, however it ends. So calls of
-- closures, in any number and order, change no scope that none of them can reach. Calls of closures
-- of two kinds do not change what only the others can reach, as long as what both can reach leads
-- nowhere else.
theorem touches_reached (fuel : Nat) (s : State) :
    (∀ st : Stmt, Touches ⟨fuel, .statement st, s⟩ (exec fuel st s).2
      fun v => (exec fuel st s).1 = .ok (.returned v)) ∧
    (∀ e : Expr, Touches ⟨fuel, .expression e, s⟩ (eval fuel e s).2
      fun v => (eval fuel e s).1 = .ok v) ∧
    (∀ calls, ∀ id < s.heap.size, ¬ s.heap.Reaches (heldBy calls) id →
      (s.after fuel calls).heap[id]? = s.heap[id]?) ∧
    ∀ mine others calls, (∀ c ∈ calls, c ∈ mine ∨ c ∈ others) →
      (∀ id, s.heap.Reaches (heldBy (mine ++ others)) id → id < s.heap.size) →
      (∀ before, before <+: calls →
        (s.after fuel before).heap.Closed (.ofScopes (s.Shared mine others))) →
      ∀ before c, before ++ [c] <+: calls → c ∈ others →
        ∀ id, (s.after fuel before).heap.Reaches (heldBy mine) id → ¬ s.Shared mine others id →
          (s.after fuel (before ++ [c])).heap[id]? = (s.after fuel before).heap[id]? := by
  have hstanding := standing_origin s
  refine ⟨fun st => ?_, fun e => ?_, fun calls id hid hnot => ?_, fun mine others calls hcalls
    hpresent hshared before c hc ho id hid hnot =>
      calls_apart hcalls hpresent hshared hc ho hid hnot⟩
  · have hstays := stays_execWith (staying_invoke _ fuel) fuel hstanding st
    exact hstays.touches ⟨fuel, .statement st, s⟩ hstanding
      (adding_execWith (adding_invoke fuel) st s) fun f hf => (hstays.answer _ hf).1
  · have hstays := stays_evalWith (staying_invoke _ fuel) hstanding e
    exact hstays.touches ⟨fuel, .expression e, s⟩ hstanding
      (adding_evalWith (adding_invoke fuel) e s) fun f hf => (hstays.answer _ hf).1
  · refine (grows_after (within_since (s.heap.closed_reaches (heldBy calls))) fun id hid =>
      known_since.2 (.root hid)).unknown id hid fun hknown => hnot (known_since.1 hknown)

-- A call of a closure that turns a switch over. The switch is in the scope that the closure keeps.
def turn (scope : ScopeId) : Call :=
  let name : Token := ⟨.identifier, "on", .nil, 1⟩
  let turned : Expr := .unary ⟨.bang, "!", .nil, 1⟩ (.variable name)
  ⟨⟨scope, ⟨.identifier, "turn", .nil, 1⟩, [], [.expression (.assign name turned)], scope⟩, []⟩

-- Two switches in scopes inside of the same one.
def twoSwitches : State where
  heap := #[⟨none, []⟩, ⟨some 0, [("on", .bool true)]⟩, ⟨some 0, [("on", .bool true)]⟩]
  current := 0
  loopDepth := 0
  functionDepth := 0
  nextIdentity := 3
  clock _ := 0
  readings := 0
  printed := ""

theorem reaches_twoSwitches (scopes : List ScopeId) {p : ScopeId → Prop} (hp : p 0)
    (hscopes : ∀ scope ∈ scopes, p scope) {id : ScopeId}
    (h : twoSwitches.heap.Reaches (heldBy (scopes.map turn)) id) : p id := by
  have hclosed : twoSwitches.heap.Closed (.ofScopes p) := by
    have houter : ∀ outer ∈ some 0, p outer := by simpa using hp
    intro id scope _ hscope
    match id with
    | 0 =>
      obtain rfl : ⟨none, []⟩ = scope := Option.some.inj hscope
      exact Scope.empty_in (by simp)
    | 1 | 2 =>
      obtain rfl : ⟨some 0, [("on", .bool true)]⟩ = scope := Option.some.inj hscope
      exact (Scope.empty_in houter).define "on" trivial
    | id + 3 => simp [twoSwitches] at hscope
  refine hclosed.of_reaches ?_ h
  rintro _ ⟨c, hc, f, hf, rfl⟩
  obtain ⟨scope, hscope, rfl⟩ := List.mem_map.1 hc
  obtain rfl | hf := hf
  · exact hscopes scope hscope
  · cases hf

-- Turning the one leaves the other as it is, since they share an empty scope only.
theorem touches_reached_switches :
    (twoSwitches.after 1 [turn 1, turn 2]).heap[1]? = (twoSwitches.after 1 [turn 1]).heap[1]? := by
  have hshared : ∀ id, twoSwitches.Shared [turn 1] [turn 2] id → id = 0 := by
    rintro id ⟨hmine, hothers⟩
    have hone : id = 0 ∨ id = 1 := reaches_twoSwitches [1] (p := fun id => id = 0 ∨ id = 1)
      (.inl rfl) (by simp) hmine
    have htwo : id = 0 ∨ id = 2 := reaches_twoSwitches [2] (p := fun id => id = 0 ∨ id = 2)
      (.inl rfl) (by simp) hothers
    obtain rfl | rfl := hone
    · rfl
    · cases htwo <;> contradiction
  have hclosed : ∀ before, before <+: [turn 1, turn 2] →
      (twoSwitches.after 1 before).heap.Closed (.ofScopes (twoSwitches.Shared [turn 1] [turn 2])) := by
    intro before hbefore id scope hid hscope
    obtain rfl := hshared id hid
    have hempty : (twoSwitches.after 1 before).heap[0]? = some ⟨none, []⟩ := by
      simp only [List.prefix_cons_iff, List.prefix_nil] at hbefore
      obtain rfl | ⟨_, rfl, rfl | ⟨_, rfl, rfl⟩⟩ := hbefore
      · rfl
      · with_unfolding_all rfl
      · with_unfolding_all rfl
    obtain rfl : ⟨none, []⟩ = scope := Option.some.inj (hempty.symm.trans hscope)
    exact Scope.empty_in (by simp)
  refine (touches_reached 1 twoSwitches).2.2.2 [turn 1] [turn 2] [turn 1, turn 2] (by simp)
    (fun id hid => ?_) hclosed [turn 1] (turn 2) (by simp) (by simp) 1 (.root ?_) fun h => ?_
  · exact reaches_twoSwitches [1, 2] (p := (· < 3)) (by decide) (by simp) hid
  · exact ⟨turn 1, by simp, _, .inl rfl, rfl⟩
  · exact absurd (hshared 1 h) Nat.one_ne_zero

end Lox.Run
