import Lox.Proofs.Grammar.Settled

namespace Lox.Grammar

open Syntax

-- A statement that is closed can be taken for one that is not.
theorem StandFor.dangling {slot : Slot} {s : DraftStmt} {ts : List Token} {tree : Stmt}
    {faults : Nat} (h : StandFor (ReadsStmt slot (tailOf s)) ts tree faults) :
    StandFor (ReadsStmt slot .dangling) ts tree faults := by
  obtain ⟨span, hspan, hrest⟩ := h
  refine ⟨span, ?_, hrest⟩
  unfold tailOf at hspan
  split at hspan
  · exact hspan
  · exact hspan.weaken

theorem StandFor.closed {slot : Slot} {s : DraftStmt} (hclosed : s.isOpen = false)
    {ts : List Token} {tree : Stmt} {faults : Nat}
    (h : StandFor (ReadsStmt slot (tailOf s)) ts tree faults) :
    StandFor (ReadsStmt slot .closed) ts tree faults := by
  rwa [tailOf, if_neg (by simp [hclosed])] at h

theorem StandFor.of_closed {ts : List Token} {tree : Stmt} {faults : Nat}
    (h : StandFor (ReadsStmt .free .closed) ts tree faults) :
    StandFor (ReadsStmt .free .dangling) ts tree faults := by
  obtain ⟨span, hspan, hrest⟩ := h
  exact ⟨span, hspan.weaken, hrest⟩

section

variable {keyword opening closing semicolon : Token} {cs bs is ns : List Token}
  {condition : DraftExpr} {yes body : DraftStmt}

end

end Lox.Grammar
