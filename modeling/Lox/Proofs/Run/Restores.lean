import Lox.Proofs.Run.Law

namespace Lox.Run

open Eval

-- Where code runs: in which scope, and inside how many loops and calls.
structure Place where
  current : ScopeId
  loopDepth : Nat
  functionDepth : Nat
deriving DecidableEq

def State.place (s : State) : Place :=
  ⟨s.current, s.loopDepth, s.functionDepth⟩

section

variable {α : Type} {s : State}

theorem place_inLoop {m : Eval α} (h : (m s.looping).2.place = s.looping.place) :
    (inLoop m s).2.place = s.place := by
  have hc : (m s.looping).2.current = s.current := congrArg Place.current h
  have hl : (m s.looping).2.loopDepth = s.loopDepth + 1 := congrArg Place.loopDepth h
  have hf : (m s.looping).2.functionDepth = s.functionDepth := congrArg Place.functionDepth h
  simp [run_inLoop, State.place, hc, hl, hf]

theorem place_enclosed {m : Eval Completion} (h : (m s.enclosed).2.place = s.enclosed.place) :
    (enclosed m s).2.place = s.place := by
  have hl : (m s.enclosed).2.loopDepth = s.loopDepth := congrArg Place.loopDepth h
  have hf : (m s.enclosed).2.functionDepth = s.functionDepth := congrArg Place.functionDepth h
  simp [run_enclosed, State.place, hl, hf]

theorem place_enter {run : List Stmt → Eval Completion} {f : Function} {arguments : List Value}
    (h : (run f.body (s.entered f arguments)).2.place = (s.entered f arguments).place) :
    (enter run f arguments s).2.place = s.place := by
  have hf : (run f.body (s.entered f arguments)).2.functionDepth = s.functionDepth + 1 :=
    congrArg Place.functionDepth h
  simp [run_enter, State.place, hf]

end

-- Code that ends where it started, however it ends.
def Restores {α : Type} (m : Eval α) : Prop :=
  ∀ s, (m s).2.place = s.place

theorem law_restores : Law Restores where
  pure _ _ := rfl
  bind {_ _ m f} hm hf s := by
    have hfirst := hm s
    rw [run_bind]
    rcases hrun : m s with ⟨_ | a, t⟩ <;> rw [hrun] at hfirst
    · exact hfirst
    · exact (hf a t).trans hfirst
  fail _ _ _ _ := rfl
  fault _ _ := rfl
  exhausted _ := rfl
  lookup name s := by
    rw [run_lookup]
    cases s.heap.get? s.current name.lexeme <;> rfl
  assign name value s := by
    rw [run_assign]
    cases s.heap.owner? name.lexeme s.current <;> rfl
  define _ _ _ := rfl
  newFunction _ _ _ _ := rfl
  print _ _ := rfl
  readClock _ := rfl
  checkLoop keyword m hm s := by
    rw [checkLoop, run_get_bind]
    split
    · rfl
    · exact hm s
  checkFunction keyword m hm s := by
    rw [checkFunction, run_get_bind]
    split
    · rfl
    · exact hm s
  inLoop hm s := place_inLoop (hm s.looping)
  enclosed hm s := place_enclosed (hm s.enclosed)
  enter f arguments hm s := place_enter (hm (s.entered f arguments))

end Lox.Run
