import Lox.Proofs.Run.Parallel
import Lox.Proofs.Run.Sound
import Lox.Proofs.Value.Interposed
import Lox.Syntax.Statement

namespace Lox.Run

open Eval

-- Rounds of a `for` loop. Only after a body that ends normally there is something to do before the
-- next round.
def forRounds (condition : Eval Value) (body : Eval Completion) (increment : Eval Unit) :
    (rounds : Nat) → Eval Completion
  | 0 => throw .exhausted
  | rounds + 1 => do
    if (← condition).isTruthy then
      match ← body with
      | .normal => do
        increment
        forRounds condition body increment rounds
      | .broke => pure .normal
      | .returned value => pure (.returned value)
    else
      pure .normal

-- Evaluates an expression for what it does besides.
def perform (fuel : Nat) (e : Expr) : Eval Unit := do
  let _ ← eval fuel e
  pure ()

-- What a `for` loop means. If there is an initializer, the loop has a scope of its own, in which
-- that runs once. Condition, body and increment run in the same scope, round by round, and a missing
-- condition is true.
def execFor (fuel : Nat) (initializer : Option Stmt) (condition increment : Option Expr)
    (body : Stmt) : Eval Completion :=
  let test : Eval Value :=
    match condition with
    | none => pure (.bool true)
    | some e => eval fuel e
  let step : Eval Unit :=
    match increment with
    | none => pure ()
    | some e => perform fuel e
  let loop := inLoop (forRounds test (exec fuel body) step fuel)
  match initializer with
  | none => loop
  | some first => enclosed do
    match ← exec fuel first with
    | .normal => loop
    | completion => pure completion

-- A body and what follows it if it ends normally.
def followed (body : Eval Completion) (increment : Eval Unit) : Eval Completion := do
  match ← body with
  | .normal => do
    increment
    pure .normal
  | completion => pure completion

theorem forRounds_eq_iterate (condition : Eval Value) (body : Eval Completion)
    (increment : Eval Unit) (rounds : Nat) :
    forRounds condition body increment rounds =
      iterate condition (followed body increment) rounds := by
  induction rounds with
  | zero => rfl
  | succ rounds ih =>
    rw [forRounds, iterate, followed]
    congr 1
    funext v
    split
    · rw [bind_assoc]
      congr 1
      funext c
      cases c with
      | normal => simp only [bind_assoc, pure_bind, ih, followed]
      | broke | returned value => rw [pure_bind]
    · rfl

theorem execAll_body_increment (fuel : Nat) (body : Stmt) (e : Expr) :
    execAllWith (invoke fuel) fuel [body, .expression e] =
      followed (exec fuel body) (perform fuel e) := by
  rw [execAllWith, followed, exec]
  congr 1
  funext c
  cases c with
  | normal => simp [execAllWith, execWith, perform, eval]
  | broke | returned value => rfl

section

variable {p : Pairing} {before before' : String} {s t : State}

theorem parallel_followed {body body' : Eval Completion} {increment increment' : Eval Unit}
    (hb : s.Beside p t)
    (hbody : Parallel p before before' (Completion.Paired p) body body' s t)
    (hincrement : ∀ s' t', s'.Paired p before before' t' → s'.Beside p t' →
      Parallel p before before' (fun _ _ => True) increment increment' s' t') :
    Parallel p before before' (Completion.Paired p) (followed body increment)
      (followed body' increment') s t := by
  refine hbody.then hb fun c c' s' t' h' hb' _ hc => ?_
  cases hc with
  | normal => exact (hincrement s' t' h' hb').bind fun _ _ _ _ h'' _ _ _ => parallel_pure h'' .normal
  | broke => exact parallel_pure h' .broke
  | returned hv => exact parallel_pure h' (.returned hv)

theorem parallel_perform (h : s.Paired p before before' t) (hb : s.Beside p t) (fuel : Nat)
    (e : Expr) :
    Parallel p before before' (fun _ _ => True) (perform fuel e) (perform fuel e) s t :=
  (parallel_evalWith (parallel_invoke p before before' fuel) h hb e).bind
    fun _ _ _ _ h' _ _ _ => parallel_pure h' trivial

-- A new scope for a round stands for what the scope around it stands for.
theorem paired_round (h : s.Paired p before before' t) (hb : s.Beside p t) (hs : s.Sound) :
    ∃ p' : Pairing, p'.Extends p s.heap.size ∧ s.enclosed.Paired p' before before' t ∧
      s.enclosed.Beside p' t ∧ p'.hollow s.heap.size ∧
        ∀ a b, a < s.heap.size → p'.scopes a b → p.scopes a b := by
  have hlt : s.current < s.heap.size := known_empty_scopes.1 hs.current
  have hheap : s.enclosed.heap.Paired (h.heap.interposed hb.current hlt) t.heap :=
    h.heap.paired_interposed hb.current hlt (fun _ => known_empty_scopes) hs.heap
  refine ⟨_, h.heap.extends_interposed hb.current hlt, ⟨hheap, h.functions, h.clock, h.printed⟩,
    ⟨h.heap.scopes_interposed hb.current hlt, hb.loops, hb.calls⟩, .inr rfl, fun a b ha hab => ?_⟩
  exact h.heap.scopes_of_interposed hb.current hlt ha hab

-- A round in a scope of its own does what it does without that scope, as long as it declares nothing
-- there.
theorem parallel_round (h : s.Paired p before before' t) (hb : s.Beside p t) (hs : s.Sound)
    (fuel : Nat) {body : Stmt} (hbody : body.Contained) (e : Expr) :
    ∃ p' : Pairing, p'.Extends p s.heap.size ∧
      Parallel p' before before' (Completion.Paired p') (exec fuel (.block [body, .expression e]))
        (followed (exec fuel body) (perform fuel e)) s t := by
  obtain ⟨p', hext, hstate, hbeside, -, -⟩ := paired_round h hb hs
  have hinner := parallel_followed hbeside
    (parallel_execWith (parallel_invoke p' before before' fuel) fuel hstate hbeside fun _ => hbody)
    fun s' t' h' hb' => parallel_perform h' hb' fuel e
  have hrun : exec fuel (.block [body, .expression e]) =
      enclosed (followed (exec fuel body) (perform fuel e)) := by
    rw [← execAll_body_increment]
    rfl
  rw [hrun]
  exact ⟨p', hext, ⟨hinner.state.heap, hinner.state.functions, hinner.state.clock,
    hinner.state.printed⟩, place_enclosed hinner.place, hinner.place', hinner.answer⟩

-- What declares nothing leaves the scope of its round as it was made. So it hides no name from what
-- runs there after it.
theorem scope_of_round (hs : s.Sound) (fuel : Nat) {body : Stmt} (hbody : body.Contained) :
    (exec fuel body s.enclosed).2.heap[s.heap.size]? = some ⟨some s.current, []⟩ := by
  have hb : s.Beside .diagonal s := ⟨Pairing.scopes_diagonal.2 rfl, Iff.rfl, Iff.rfl⟩
  obtain ⟨p, -, hstate, hbeside, hhollow, hold⟩ := paired_round s.paired_refl hb hs
  have hrun := parallel_execWith (parallel_invoke p s.printed s.printed fuel) fuel hstate hbeside
    fun _ => hbody
  obtain ⟨outer, hscope, hlt, houter⟩ := hrun.state.heap.hollow _ _ hbeside.current hhollow
  obtain rfl : outer = s.current := Pairing.scopes_diagonal.1 (hold outer s.current hlt houter)
  exact hscope

-- Code that does the same from two states, if what is created on the way may stand for something
-- else than planned.
def Matching (p : Pairing) (before before' : String) (m m' : Eval Completion) (s t : State) : Prop :=
  ∃ p' : Pairing, p'.Extends p s.heap.size ∧
    Parallel p' before before' (Completion.Paired p') m m' s t

theorem Parallel.matching {m m' : Eval Completion}
    (h : Parallel p before before' (Completion.Paired p) m m' s t) :
    Matching p before before' m m' s t :=
  ⟨p, .refl p _, h⟩

theorem Matching.bind {α α' : Type} {good : α → α' → Prop} {good₀ : State → α → Prop} {m : Eval α}
    {m' : Eval α'} {f : α → Eval Completion} {f' : α' → Eval Completion} (hb : s.Beside p t)
    (hs : s.Sound) (hm : Parallel p before before' good m m' s t) (hstays : Stays .empty good₀ m s)
    (hf : ∀ a b s' t', s'.Paired p before before' t' → s'.Beside p t' → s'.Sound →
      s'.current = s.current → good a b → Matching p before before' (f a) (f' b) s' t') :
    Matching p before before' (m >>= f) (m' >>= f') s t := by
  obtain hstops | ⟨a, b, s', t', hrun, hrun', hstate, hplace, hplace', hab⟩ :=
    hm.stops_or_goes_on (Completion.Paired p) f f'
  · exact hstops.matching
  · have hleads := hstays.leads
    have hwithin := hstays.within
    rw [hrun] at hleads hwithin
    obtain ⟨p', hext, hparallel⟩ := hf a b s' t' hstate (hb.later hplace hplace')
      (hs.of_leads hleads hwithin) (congrArg Place.current hplace) hab
    exact ⟨p', (Pairing.Extends.refl p _).trans hext hleads.scopes,
      .after hrun hrun' hplace hplace' hparallel⟩

theorem Matching.extend {p' : Pairing} {m m' : Eval Completion} (hext : p'.Extends p s.heap.size)
    (h : Matching p' before before' m m' s t) : Matching p before before' m m' s t := by
  obtain ⟨p'', hext', hpar⟩ := h
  exact ⟨p'', hext.trans hext' (Nat.le_refl _), hpar⟩

-- Rounds in scopes of their own. What the scopes of a round stand for is fixed when it starts; what
-- there was before keeps standing for the same.
theorem parallel_rounds (h : s.Paired p before before' t) (hb : s.Beside p t) (hs : s.Sound)
    (fuel : Nat) (condition : Expr) {body : Stmt} (hbody : body.Contained) (e : Expr)
    (rounds : Nat) :
    Matching p before before'
      (iterate (eval fuel condition) (exec fuel (.block [body, .expression e])) rounds)
      (iterate (eval fuel condition) (followed (exec fuel body) (perform fuel e)) rounds) s t := by
  induction rounds generalizing p s t with
  | zero => exact (parallel_throw h .exhausted).matching
  | succ rounds ih =>
    refine Matching.bind hb hs
      (parallel_evalWith (parallel_invoke p before before' fuel) h hb condition)
      (stays_evalWith (staying_invoke .empty fuel) hs condition) fun v w s₁ t₁ h₁ hb₁ hs₁ _ hv => ?_
    rw [hv.isTruthy]
    split
    · -- the scope of this round gets its place now, the scopes of later rounds when they start
      obtain ⟨p', hext, hround⟩ := parallel_round h₁ hb₁ hs₁ fuel hbody e
      have hb₁' : s₁.Beside p' t₁ :=
        ⟨hext.scopes _ _ (known_empty_scopes.1 hs₁.current) hb₁.current, hb₁.loops, hb₁.calls⟩
      refine Matching.extend hext (Matching.bind hb₁' hs₁ hround
        (stays_execWith (staying_invoke .empty fuel) fuel hs₁ (.block [body, .expression e]))
        fun c c' s₂ t₂ h₂ hb₂ hs₂ _ hc => ?_)
      cases hc with
      | normal => exact ih h₂ hb₂ hs₂
      | broke => exact (parallel_pure h₂ .normal).matching
      | returned hv => exact (parallel_pure h₂ (.returned hv)).matching
    · exact (parallel_pure h₁ .normal).matching

theorem Matching.inLoop {m m' : Eval Completion}
    (h : Matching p before before' m m' s.looping t.looping) :
    Matching p before before' (inLoop m) (inLoop m') s t := by
  obtain ⟨p', hext, hpar⟩ := h
  exact ⟨p', hext, parallel_inLoop hpar⟩

theorem Matching.enclosed {m m' : Eval Completion}
    (h : Matching p before before' m m' s.enclosed t.enclosed) :
    Matching p before before' (enclosed m) (enclosed m') s t := by
  obtain ⟨p', hext, hpar⟩ := h
  have hsize : s.heap.size ≤ s.enclosed.heap.size := by simp [State.enclosed]
  exact ⟨p', (Pairing.Extends.refl p _).trans hext hsize, parallel_enclosed hpar⟩

theorem followed_pure (body : Eval Completion) : followed body (pure ()) = body := by
  have hsame : (fun c : Completion => (match c with
      | .normal => do
        let _ ← (pure () : Eval Unit)
        pure Completion.normal
      | completion => pure completion : Eval Completion)) = pure := by
    funext c
    cases c <;> rfl
  exact (congrArg (body >>= ·) hsame).trans (bind_pure body)

theorem execAll_pair (fuel : Nat) (first second : Stmt) :
    execAllWith (invoke fuel) fuel [first, second] = (do
      match ← exec fuel first with
      | .normal => exec fuel second
      | completion => pure completion) := by
  rw [execAllWith, exec]
  congr 1
  funext c
  cases c with
  | normal =>
    have hsame : (fun c : Completion => (match c with
        | .normal => execAllWith (invoke fuel) fuel []
        | .broke => pure .broke
        | .returned value => pure (.returned value) : Eval Completion)) = pure := by
      funext c
      cases c <;> rfl
    rw [execAllWith]
    exact (congrArg (execWith (invoke fuel) fuel second >>= ·) hsame).trans (bind_pure _)
  | broke | returned value => rfl

-- The loop without its initializer.
theorem matching_while (h : s.Paired p before before' t) (hb : s.Beside p t) (hs : s.Sound)
    (hsolid : ¬ p.hollow s.current) (fuel : Nat) (condition increment : Option Expr) {body : Stmt}
    (hbody : body.Contained) :
    Matching p before before' (exec fuel (Syntax.forLoop none condition increment body))
      (execFor fuel none condition increment body) s t := by
  have htest : (match condition with
      | none => pure (.bool true)
      | some e => eval fuel e : Eval Value) =
        eval fuel (condition.getD (.literal (.bool true))) := by
    cases condition <;> rfl
  simp only [execFor, htest, forRounds_eq_iterate]
  cases increment with
  | none =>
    rw [followed_pure]
    exact (parallel_execWith (parallel_invoke p before before' fuel) fuel h hb
      fun hhollow => absurd hhollow hsolid).matching
  | some e =>
    have h' : s.looping.Paired p before before' t.looping :=
      ⟨h.heap, h.functions, h.clock, h.printed⟩
    have hb' : s.looping.Beside p t.looping := ⟨hb.current, by simp [State.looping], hb.calls⟩
    exact Matching.inLoop (parallel_rounds h' hb' hs.looping fuel _ hbody e fuel)

-- What a `for` loop is read as does what the loop means.
theorem matching_for (h : s.Paired p before before' t) (hb : s.Beside p t) (hs : s.Sound)
    (hsolid : ¬ p.hollow s.current) (fuel : Nat) (initializer : Option Stmt)
    (condition increment : Option Expr) {body : Stmt} (hbody : body.Contained) :
    Matching p before before' (exec fuel (Syntax.forLoop initializer condition increment body))
      (execFor fuel initializer condition increment body) s t := by
  cases initializer with
  | none => exact matching_while h hb hs hsolid fuel condition increment hbody
  | some first =>
    obtain ⟨h', hb', hsolid'⟩ := paired_enclosed h hb
    have hs' : s.enclosed.Sound := hs.enclosed.2
    have hrun : exec fuel (Syntax.forLoop (some first) condition increment body) =
        Run.enclosed (do
          match ← exec fuel first with
          | .normal => exec fuel (Syntax.forLoop none condition increment body)
          | completion => pure completion) := by
      rw [← execAll_pair]
      rfl
    rw [hrun]
    refine Matching.enclosed (Matching.bind hb' hs'
      (parallel_execWith (parallel_invoke p before before' fuel) fuel h' hb'
        fun hhollow => absurd hhollow hsolid')
      (stays_execWith (staying_invoke .empty fuel) fuel hs' first)
      fun c c' s₁ t₁ h₁ hb₁ hs₁ hcurrent hc => ?_)
    cases hc with
    | normal => exact matching_while h₁ hb₁ hs₁ (hcurrent ▸ hsolid') fuel condition increment hbody
    | broke => exact (parallel_pure h₁ .broke).matching
    | returned hv => exact (parallel_pure h₁ (.returned hv)).matching

end

end Lox.Run
