import Lox.Proofs.Run.Rooted
import Lox.Proofs.Session.Sound

namespace Lox.Session

open Run

-- The moments of the programs that run in sessions of program texts.
inductive Runs (clock : Nat → Float) : Moment → Prop
  | program {session : Session} {source : String} (hs : Reachable clock session) (fuel : Nat)
      (hsource : Accepted source) :
      Runs clock ⟨fuel, .sequence (statementsOf source), session.state.started⟩
  | enters {m m' : Moment} (h : Runs clock m) (hm : m.Enters m') : Runs clock m'

-- The states that sessions come to: between two texts, and where any task of a program starts and
-- ends, an error being one way to end.
inductive Visits (clock : Nat → Float) : State → Prop
  | between {session : Session} (h : Reachable clock session) : Visits clock session.state
  | starts {m : Moment} (h : Runs clock m) : Visits clock m.state
  | ends {m : Moment} (h : Runs clock m) : Visits clock m.ended

-- How a session comes from one state to a later one: over a whole text, into its program, into a
-- task and out of it, and over a whole task.
inductive Passes (clock : Nat → Float) : State → State → Prop
  | text {session : Session} (h : Reachable clock session) (fuel : Nat) (source : String) :
      Passes clock session.state (session.run fuel source).2.state
  | program {session : Session} (h : Reachable clock session) :
      Passes clock session.state session.state.started
  | enters {m m' : Moment} (h : Runs clock m) (hm : m.Enters m') : Passes clock m.state m'.state
  | leaves {m m' : Moment} (h : Runs clock m) (hm : m.Enters m') : Passes clock m'.ended m.ended
  | task {m : Moment} (h : Runs clock m) : Passes clock m.state m.ended

-- The scopes that a session has to do with in a state: the current one, all that were ever created,
-- those that the functions keep that are bound anywhere, and those of the functions with which
-- the task that ends there had anything to do.
inductive Refers (clock : Nat → Float) : State → ScopeId → Prop
  | current {s : State} : Refers clock s s.current
  | created {s : State} {id : ScopeId} (h : id < s.heap.size) : Refers clock s id
  | kept {s : State} {id : ScopeId} {scope : Scope} {name : String} {f : Function}
      (hs : s.heap[id]? = some scope) (hf : scope.find? name = some (.function f)) :
      Refers clock s f.scope
  | handled {m : Moment} {f : Function} (hm : Runs clock m) (hf : m.Handles (.function f)) :
      Refers clock m.ended f.scope

variable {clock : Nat → Float} {s t : State}

theorem state_of_accepted {source : String} (h : Accepted source) (fuel : Nat)
    (session : Session) : (session.run fuel source).2.state =
      Moment.ended ⟨fuel, .sequence (statementsOf source), session.state.started⟩ := by
  rw [run_of_accepted h, run_eq]
  exact state_execTop fuel _ _

-- What holds in every state of a session: it refers to what exists, and all links lead to the
-- global scope.
structure Kept (s : State) : Prop where
  sound : s.Sound
  rooted : s.heap.Rooted globalScope

theorem Kept.started (h : Kept s) : Kept s.started :=
  ⟨⟨⟨h.sound.scopes, h.sound.identities, h.sound.heap⟩, h.sound.current⟩, h.rooted⟩

theorem kept_ended {m : Moment} (hm : m.Standing .empty) (h : Kept m.state) : Kept m.ended := by
  obtain ⟨hleads, hwithin⟩ := m.leads_ended hm
  exact ⟨h.sound.of_leads hleads hwithin, traced_rooted.ended m hm h.rooted⟩

theorem Reachable.kept {session : Session} (h : Reachable clock session) : Kept session.state := by
  induction h with
  | new => exact ⟨sound_initial clock, rooted_initial clock⟩
  | @run session _ fuel source ih =>
    by_cases hsource : Accepted source
    · rw [state_of_accepted hsource]
      exact kept_ended ih.started.sound ih.started
    · rw [run_of_rejected hsource]
      exact ih

theorem Runs.kept {m : Moment} (h : Runs clock m) : m.Standing .empty ∧ Kept m.state := by
  induction h with
  | program hs fuel hsource => exact ⟨hs.kept.started.sound, hs.kept.started⟩
  | enters _ hm ih =>
    obtain ⟨hstanding, hkept⟩ := ih
    exact ⟨(hm.standing hstanding).2, hm.stands hstanding,
      traced_rooted.entered hm hstanding hkept.rooted⟩

theorem Visits.kept (h : Visits clock s) : Kept s := by
  cases h with
  | between h => exact h.kept
  | starts h => exact h.kept.2
  | ends h => exact kept_ended h.kept.1 h.kept.2

-- In whatever way a session passes on, it comes to one of its states again and loses no name.
theorem Passes.gains (h : Passes clock s t) :
    s.heap.Gains (fun _ => True) t.heap ∧ Kept t := by
  cases h with
  | @text session h fuel source =>
    refine ⟨?_, (h.run fuel source).kept⟩
    by_cases hsource : Accepted source
    · rw [state_of_accepted hsource]
      exact traced_gains.ended ⟨fuel, .sequence _, session.state.started⟩
    · rw [run_of_rejected hsource]
      exact .refl _
  | program h => exact ⟨.refl _, h.kept.started⟩
  | enters h hm => exact ⟨traced_gains.entered hm, (h.enters hm).kept.2⟩
  | leaves h hm => exact ⟨hm.gains_ended, kept_ended h.kept.1 h.kept.2⟩
  | @task m h => exact ⟨traced_gains.ended m, kept_ended h.kept.1 h.kept.2⟩

theorem gains_of_passes (hs : Kept s) (h : Relation.ReflTransGen (Passes clock) s t) :
    s.heap.Gains (fun _ => True) t.heap ∧ Kept t := by
  induction h with
  | refl => exact ⟨.refl _, hs⟩
  | tail _ hstep ih => exact ⟨ih.1.trans hstep.gains.1, hstep.gains.2⟩

theorem Refers.lt {id : ScopeId} (h : Refers clock s id) (hs : Kept s) : id < s.heap.size := by
  cases h with
  | current => exact known_empty_scopes.1 hs.sound.current
  | created h => exact h
  | @kept _ id scope name f hscope hf =>
    have hid : id < s.heap.size := (Array.getElem?_eq_some_iff.1 hscope).1
    have hin := hs.sound.heap id scope (known_empty_scopes.2 hid) hscope
    exact known_empty_scopes.1 (hin.values name _ hf).1
  | handled hm hf => exact hf.scope_lt hm.kept.1

-- In every state that a session of program texts comes to, whatever went wrong on the way, the links
-- from every scope that there is lead to the global scope after finitely many steps, and names are
-- looked up and assigned along them. In all later states of the session the way is the same, and so a
-- name that is found from a scope is always found from there.
theorem scopes_stay_chained (hs : Visits clock s) :
    (∀ id, Refers clock s id → ∃ path, s.heap.Way globalScope id path ∧
      ∀ t, Relation.ReflTransGen (Passes clock) s t → t.heap.Way globalScope id path) ∧
    ∀ t, Relation.ReflTransGen (Passes clock) s t →
      ∀ id name, (s.heap.get? id name).isSome → (t.heap.get? id name).isSome := by
  refine ⟨fun id hid => ?_, fun t ht id name hname => ?_⟩
  · obtain ⟨path, hway⟩ := hs.kept.rooted.exists_way (hid.lt hs.kept)
    refine ⟨path, hway, fun t ht => ?_⟩
    obtain ⟨hgains, hkept⟩ := gains_of_passes hs.kept ht
    exact hkept.rooted.way (hway.chain.gains hgains) hway.root
  · obtain ⟨hgains, hkept⟩ := gains_of_passes hs.kept ht
    exact hs.kept.rooted.isSome_get? hkept.rooted hgains hname

-- A text that fails after it has bound a name in place of the clock.
theorem scopes_stay_chained_failed :
    let session := new fun _ => 0
    (session.run 2 "fun clock() \x7b\x7d x;").1.diagnostics.length = 1 ∧
      ((session.run 2 "fun clock() \x7b\x7d x;").2.state.heap.get? globalScope "clock").isSome := by
  intro session
  have hreachable : Reachable (fun _ => 0) session := .new
  have hclock : (session.state.heap.get? globalScope "clock").isSome := by
    rw [Heap.isSome_get?, Heap.owner?]
    rfl
  refine ⟨by decide +kernel, ?_⟩
  exact (scopes_stay_chained (.between hreachable)).2 _ (.single (.text hreachable 2 _)) _ _ hclock

end Lox.Session
