import Lox.Proofs.Run.Law
import Lox.Proofs.Text.OneLine

namespace Lox.Run

open Eval Text

theorem oneLine_kindName (v : Value) : OneLine v.kindName := by
  cases v <;> rw [Value.kindName] <;> decide

theorem RuntimeFault.Ordinary.oneLine {fault : RuntimeFault} (h : fault.Ordinary) :
    OneLine fault.message := by
  cases h with
  | notAddable | notNumbers | notCallable => decide
  | notComparable left right =>
    have hcompare : OneLine "Cannot compare " := by decide
    have hwith : OneLine " with " := by decide
    have hstop : OneLine "." := by decide
    exact (((hcompare.append (oneLine_kindName left)).append hwith).append
      (oneLine_kindName right)).append hstop
  | wrongArity expected given =>
    have hexpected : OneLine "Expected " := by decide
    have hgot : OneLine " arguments but got " := by decide
    have hstop : OneLine "." := by decide
    exact (((hexpected.append (oneLine_nat expected)).append hgot).append
      (oneLine_nat given)).append hstop

-- An error whose message is on one line if the token at which it points is.
def RuntimeError.Plain (e : RuntimeError) : Prop :=
  OneLine e.token.lexeme → OneLine e.fault.message

theorem RuntimeError.Plain.undefinedVariable (name : Token) :
    RuntimeError.Plain ⟨name, .undefinedVariable name.lexeme⟩ := by
  intro hname
  have hundefined : OneLine "Undefined variable '" := by decide
  have hstop : OneLine "'." := by decide
  exact (hundefined.append hname).append hstop

-- Code that fails with such errors only.
def Complains {α : Type} (m : Eval α) : Prop :=
  ∀ s e, (m s).1 = .error (.error e) → e.Plain

theorem law_complains : Law Complains where
  pure _ _ _ h := by cases h
  bind {_ _ m f} hm hf s e h := by
    have hfirst := hm s
    rw [run_bind] at h
    rcases hrun : m s with ⟨halt | a, t⟩ <;> rw [hrun] at h hfirst
    · exact hfirst e (by simpa using h)
    · exact hf a t e h
  fail _ _ hordinary _ _ h := by
    cases h
    exact fun _ => hordinary.oneLine
  fault _ _ _ h := by cases h
  exhausted _ _ h := by cases h
  lookup name s e h := by
    rw [run_lookup] at h
    cases hfound : s.heap.get? s.current name.lexeme <;> rw [hfound] at h
    · cases h
      exact .undefinedVariable name
    · cases h
  assign name value s e h := by
    rw [run_assign] at h
    cases hfound : s.heap.owner? name.lexeme s.current <;> rw [hfound] at h
    · cases h
      exact .undefinedVariable name
    · cases h
  define _ _ _ _ h := by cases h
  newFunction _ _ _ _ _ h := by cases h
  print _ _ _ h := by cases h
  readClock _ _ h := by cases h
  checkLoop keyword m hm s e h := by
    rw [checkLoop, run_get_bind] at h
    split at h
    · cases h
      have hmessage : OneLine RuntimeFault.breakOutsideLoop.message := by decide
      exact fun _ => hmessage
    · exact hm s e h
  checkFunction keyword m hm s e h := by
    rw [checkFunction, run_get_bind] at h
    split at h
    · cases h
      have hmessage : OneLine RuntimeFault.returnOutsideFunction.message := by decide
      exact fun _ => hmessage
    · exact hm s e h
  inLoop hm s e h := hm s.looping e h
  enclosed hm s e h := hm s.enclosed e h
  enter f arguments hm s e h := by
    rw [run_enter] at h
    exact hm (s.entered f arguments) e h

-- Whatever tree is run, no line ends in what is told of its error but at the token.
theorem plain_of_failed {fuel : Nat} {program : List Stmt} {s : State} {e : RuntimeError}
    (h : (run fuel program s).1 = .failed e) : e.Plain := by
  rw [run_eq] at h
  have hcomplains := law_complains.execTop fuel program s.started
  cases hresult : (execTop fuel program s.started).1 with
  | ok _ =>
    rw [hresult] at h
    cases h
  | error halt =>
    rw [hresult] at h
    cases halt with
    | error e' =>
      cases h
      exact hcomplains e hresult
    | fault | exhausted => cases h

end Lox.Run
