import Lox.Proofs.Run.Declares
import Lox.Proofs.Run.Defined
import Lox.Proofs.Run.Sound
import Lox.Proofs.Run.Traced
import Lox.Proofs.Value.Chain

namespace Lox.Run

open Eval

theorem traced_gains : Traced fun _ before after => before.Gains (fun _ => True) after where
  refl _ heap := .refl heap
  trans h h' := h.trans h'
  enters _ h := h
  binds _ _ := .define (fun _ _ => .inr trivial) _
  block _ _ s := .create s.heap (some s.current)
  call _ f _ s := .create s.heap (some f.scope)

-- A block and a call create their scope inside of one that exists. For a call that is the scope that
-- the function keeps, of which the task that calls it knows.
theorem traced_rooted : Traced fun m before after =>
    m.Standing .empty → before.Rooted globalScope → after.Rooted globalScope where
  refl _ _ _ h := h
  trans h h' hm hg := h' hm (h hm hg)
  enters hm h hstanding := h (hm.standing hstanding).2
  binds _ _ _ h := h.define ..
  block _ _ _ hm h := h.create (known_empty_scopes.1 (State.Standing.current hm))
  call _ _ _ _ hm h := h.create (known_empty_scopes.1 hm.2.1.1)

namespace Moment

variable {o : Origin} {m m' : Moment}

-- A call is entered from the scope in which it stands, too.
theorem Enters.stands (h : m.Enters m') (hm : m.Standing o) : m'.state.Standing o := by
  have hm' := (h.standing hm).2
  cases h with
  | call hc ha _ =>
    obtain ⟨-, ht, -⟩ := State.Standing.evaluated hm hc
    obtain ⟨-, hu, -⟩ := ht.evaluatedAll ha
    exact hu
  | _ => exact hm'

-- A task ends in the scope in which it starts, and leads to nothing that does not exist.
theorem leads_ended (hm : m.Standing o) : m.state.Leads o m.ended ∧ m.ended.Within o := by
  obtain ⟨n, task, s⟩ := m
  have hi := staying_invoke o n
  cases task with
  | expression e =>
    obtain ⟨hleads, hwithin, -⟩ := stays_evalWith hi hm e
    exact ⟨hleads, hwithin⟩
  | arguments es =>
    obtain ⟨hleads, hwithin, -⟩ := stays_evalAllWith hi hm es
    exact ⟨hleads, hwithin⟩
  | statement st =>
    obtain ⟨hleads, hwithin, -⟩ := stays_execWith hi n hm st
    exact ⟨hleads, hwithin⟩
  | sequence ss =>
    obtain ⟨hleads, hwithin, -⟩ := stays_execAllWith hi n hm ss
    exact ⟨hleads, hwithin⟩
  | rounds condition body k =>
    obtain ⟨hleads, hwithin, -⟩ := stays_iterate hm (fun _ ht => stays_evalWith hi ht condition)
      (fun _ ht => stays_execWith hi n ht body) k
    exact ⟨hleads, hwithin⟩
  | call f vs =>
    obtain ⟨hleads, hwithin, -⟩ := hi s f vs hm.1 hm.2.1 hm.2.2
    exact ⟨hleads, hwithin⟩

end Moment

section

variable {α β : Type}

-- Code that goes on after other code keeps what that left.
theorem gains_rest {first : Eval α} {rest : α → Eval β} (h : ∀ a, Declares True (rest a))
    (s : State) : (first s).2.heap.Gains (fun _ => True) ((first >>= rest) s).2.heap := by
  rw [run_bind]
  rcases first s with ⟨halt | a, t⟩
  · exact .refl t.heap
  · exact (h a t).2.restrict fun _ _ _ => trivial

end

namespace Moment

variable {m m' : Moment}

-- A task that is entered ends before the one that entered it, and nothing is lost in between.
theorem Enters.gains_ended (h : m.Enters m') :
    m'.ended.heap.Gains (fun _ => True) m.ended.heap := by
  have hq := law_declares
  have hi := hq.invoke
  cases h with
  | assigned => exact gains_rest (fun v => hq.bind (hq.assign _ v) fun _ => hq.pure v) _
  | left =>
    exact gains_rest (fun l => hq.bind (hq.evalWith (hi _) _) fun r => hq.applyBinary l _ r) _
  | right hl =>
    rw [eval] at hl
    rw [ended, ended, eval, eval, evalWith, run_bind_ok hl]
    exact gains_rest (fun r => hq.applyBinary _ _ r) _
  | callee =>
    exact gains_rest (fun f => hq.bind (hq.evalAllWith (hi _) _) fun vs =>
      hq.applyCall (hi _) f _ vs) _
  | arguments hc =>
    rw [eval] at hc
    rw [ended, ended, eval, evalWith, run_bind_ok hc]
    exact gains_rest (fun vs => hq.applyCall (hi _) _ _ vs) _
  | call hc ha hn =>
    rw [eval] at hc
    rw [ended, ended, eval, evalWith, run_bind_ok hc, run_bind_ok ha, applyCall, if_pos hn]
    exact .refl _
  | grouping => exact .refl _
  | first =>
    refine gains_rest (fun l => ?_) _
    split
    · exact hq.pure l
    · exact hq.evalWith (hi _) _
  | second hl hv =>
    rw [eval] at hl
    rw [ended, ended, eval, eval, evalWith, run_bind_ok hl, if_neg hv]
    exact .refl _
  | operand => exact gains_rest (fun v => hq.applyUnary _ v) _
  | argument => exact gains_rest (fun v => hq.bind (hq.evalAllWith (hi _) _) fun _ => hq.pure _) _
  | nextArguments he =>
    rw [eval] at he
    rw [ended, ended, evalAllWith, run_bind_ok he]
    exact gains_rest (fun _ => hq.pure _) _
  | block => exact .refl _
  | expression => exact gains_rest (fun _ => hq.pure _) _
  | @condition n condition yes s no =>
    cases no with
    | none =>
      refine gains_rest (fun v => ?_) _
      split
      · exact hq.exec n yes
      · exact hq.pure _
    | some no =>
      refine gains_rest (fun v => ?_) _
      split
      · exact hq.exec n yes
      · exact hq.exec n no
  | @yes n condition s v t yes no hc hv =>
    rw [eval] at hc
    cases no <;> rw [ended, ended, exec, exec, execWith, run_bind_ok hc, if_pos hv] <;>
      exact .refl _
  | no hc hv =>
    rw [eval] at hc
    rw [ended, ended, exec, exec, execWith, run_bind_ok hc, if_neg (by simp [hv])]
    exact .refl _
  | printed =>
    refine gains_rest (fun v => ?_) _
    cases v.display with
    | error u => exact hq.bind (hq.fault _) fun _ => hq.pure _
    | ok text => exact hq.bind (hq.print text) fun _ => hq.pure _
  | returned hs =>
    rw [ended, ended, exec, execWith, run_get_bind, if_neg hs]
    exact gains_rest (fun _ => hq.pure _) _
  | initializer => exact gains_rest (fun v => hq.bind (hq.define _ v) fun _ => hq.pure _) _
  | loop => exact .refl _
  | @test n condition body k s =>
    refine gains_rest (fun v => ?_) _
    split
    · refine hq.bind (hq.exec n body) fun c => ?_
      cases c with
      | normal => exact hq.iterate (hq.evalWith (hi n) condition) (hq.exec n body) k
      | broke | returned value => exact hq.pure _
    · exact hq.pure _
  | @round n condition s v t body k hc hv =>
    rw [ended, ended, iterate, run_bind_ok hc, if_pos hv]
    refine gains_rest (fun c => ?_) _
    cases c with
    | normal => exact hq.iterate (hq.evalWith (hi n) condition) (hq.exec n body) k
    | broke | returned value => exact hq.pure _
  | nextRounds hc hv hb =>
    rw [ended, ended, iterate, run_bind_ok hc, if_pos hv, run_bind_ok hb]
    exact .refl _
  | @statement n st ss s =>
    refine gains_rest (fun c => ?_) _
    cases c with
    | normal => exact hq.execAllWith (hi n) n ss
    | broke | returned value => exact hq.pure _
  | nextStatements hs =>
    rw [exec] at hs
    rw [ended, ended, execAllWith, run_bind_ok hs]
    exact .refl _
  | @body n f vs s =>
    have hrest : (enter (execAllWith (invoke n) n) f vs s).2.heap.Gains (fun _ => True) _ :=
      gains_rest (hq.leave f) s
    rw [ended, ended, invoke, callWith_eq]
    rwa [run_enter] at hrest

-- The scope that a function keeps was created before the end of whatever task has to do with it.
theorem Enters.evaluated_lt {n : Nat} {e : Expr} {s t : State} {f : Function}
    (h : m.Enters ⟨n, .expression e, s⟩) (hm : m.Standing .empty)
    (he : eval n e s = (.ok (.function f), t)) : f.scope < m.ended.heap.size := by
  obtain ⟨-, -, hf⟩ := State.Standing.evaluated (h.standing hm).2 he
  have hle := h.gains_ended.size_le
  rw [ended, he] at hle
  exact Nat.lt_of_lt_of_le (known_empty_scopes.1 hf.1) hle

theorem Handles.scope_lt {f : Function} (h : m.Handles (.function f)) (hm : m.Standing .empty) :
    f.scope < m.ended.heap.size := by
  have hgrows := (traced_gains.ended m).size_le
  cases h with
  | evaluated h =>
    obtain ⟨-, -, hf⟩ := State.Standing.evaluated hm h
    rw [ended, h]
    exact known_empty_scopes.1 hf.1
  | negated h => exact Enters.operand.evaluated_lt hm h
  | decided h => exact Enters.first.evaluated_lt hm h
  | branched h => exact Enters.condition.evaluated_lt hm h
  | repeated h => exact Enters.test.evaluated_lt hm h
  | shown h => exact Enters.printed.evaluated_lt hm h
  | passed h hv =>
    obtain ⟨-, -, hvs⟩ := State.Standing.evaluatedAll hm h
    rw [ended, h]
    exact known_empty_scopes.1 (hvs _ hv).1
  | given hv => exact Nat.lt_of_lt_of_le (known_empty_scopes.1 (hm.2.2 _ hv).1) hgrows
  | @answered n g vs s _ t h =>
    have hf := (staying_invoke .empty n s g vs hm.1 hm.2.1 hm.2.2).answer (.function f)
    rw [h] at hf
    rw [ended, h]
    exact known_empty_scopes.1 (hf rfl).1
  | @carried n st s _ t h =>
    have hf := (stays_execWith (staying_invoke .empty n) n hm st).answer (.returned (.function f))
    rw [show execWith (invoke n) n st s = _ from h] at hf
    rw [ended, h]
    exact known_empty_scopes.1 (hf rfl).1
  | bound h =>
    cases h with
    | assigned hv _ => exact Enters.assigned.evaluated_lt hm hv
    | initialized hv => exact Enters.initializer.evaluated_lt hm hv
    | function =>
      exact Nat.lt_of_lt_of_le (known_empty_scopes.1 (State.Standing.current hm)) hgrows
    | parameter hmem =>
      have hf := hm.2.2 _ (List.of_mem_zip hmem).2
      exact Nat.lt_of_lt_of_le (known_empty_scopes.1 hf.1) hgrows

end Moment

-- A program ends in the state in which its statements end.
theorem state_execTop (fuel : Nat) (ss : List Stmt) (s : State) :
    (execTop fuel ss s).2 = (execAllWith (invoke fuel) fuel ss s).2 := by
  induction ss generalizing s with
  | nil => rfl
  | cons st ss ih =>
    rw [execTop, execAllWith, exec, run_bind, run_bind]
    rcases execWith (invoke fuel) fuel st s with ⟨halt | c, t⟩
    · rfl
    · cases c with
      | normal => exact ih t
      | broke | returned value => rfl

theorem rooted_initial (clock : Nat → Float) : (State.initial clock).heap.Rooted globalScope := by
  have hcreated : (Heap.create #[] none).Rooted globalScope := by
    refine ⟨rfl, fun id link hlink hne => ?_⟩
    have hnone : Heap.link? #[] id = some link := by
      rwa [Heap.link?_create, if_neg (show id ≠ #[].size from hne)] at hlink
    cases hnone
  exact hcreated.define globalScope Primitive.clock.name (.primitive .clock)

end Lox.Run
