import Lox.Proofs.Run.Within

namespace Lox.Run

-- Nothing is known from the start, and later all that was created.
def Origin.empty : Origin :=
  ⟨⟨fun _ => False, fun _ => False⟩, 0, 0⟩

-- A state that refers to no scopes and no functions but those that were created.
def State.Sound (s : State) : Prop :=
  s.Standing .empty

-- A value that refers to nothing else either.
def State.Has (s : State) (v : Value) : Prop :=
  v.In (Origin.empty.known s)

section

variable {s : State}

theorem known_empty_scopes {id : Nat} : (Origin.empty.known s).scopes id ↔ id < s.heap.size := by
  simp [Origin.known, Origin.empty]

theorem known_empty_identities {i : Nat} :
    (Origin.empty.known s).identities i ↔ i < s.nextIdentity := by
  simp [Origin.known, Origin.empty]

theorem State.Sound.of_leads {t : State} (hs : s.Sound) (h : s.Leads .empty t)
    (ht : t.Within .empty) : t.Sound :=
  State.Standing.later hs h ht

theorem sound_initial (clock : Nat → Float) : (State.initial clock).Sound := by
  have hempty : Heap.Closed (Origin.empty.known (.initial clock)) #[] := by
    intro id scope _ hscope
    simp at hscope
  refine ⟨⟨Nat.zero_le _, Nat.zero_le _, ?_⟩, known_empty_scopes.2 (Nat.lt_succ_self 0)⟩
  exact (hempty.create (by simp)).define _ _ trivial

-- Programs leave sound states, however they end.
theorem sound_run (hs : s.Sound) (fuel : Nat) (program : List Stmt) :
    (run fuel program s).2.Sound := by
  have hstarted : s.started.Standing .empty := ⟨⟨hs.scopes, hs.identities, hs.heap⟩, hs.current⟩
  have hstays := stays_execTop fuel hstarted program
  rw [run_eq]
  exact hstarted.later hstays.leads hstays.within

end

end Lox.Run
