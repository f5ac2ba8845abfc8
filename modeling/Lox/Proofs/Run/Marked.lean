import Lox.Proofs.Run.Safe
import Lox.Proofs.Run.Sequence
import Lox.Proofs.Syntax.Textual

namespace Lox

-- A number for each of several programs and one for what was there before them.
def markOf : Option Nat → Nat
  | none => 0
  | some j => j + 1

def originOf : Nat → Option Nat
  | 0 => none
  | j + 1 => some j

theorem originOf_markOf (origin : Option Nat) : originOf (markOf origin) = origin := by
  cases origin <;> rfl

-- The line of a token that keeps besides its own line where it is from, one of `count` origins.
def Token.markedLine (count : Nat) (origin : Option Nat) (t : Token) : Int :=
  markOf origin + t.line * count

-- The line of a marked token without its mark, so many lines further on as the mark says.
def Token.placedLine (count : Nat) (lines : Option Nat → Int) (t : Token) : Int :=
  t.line / count + lines (originOf (t.line % count).toNat)

theorem thenLine_marked_placed {count : Nat} {origin : Option Nat} (h : markOf origin < count)
    (lines : Option Nat → Int) :
    thenLine (Token.markedLine count origin) (Token.placedLine count lines) =
      Token.lineAfter (lines origin) := by
  funext t
  have hcount : (count : Int) ≠ 0 := by omega
  have hdiv : (markOf origin + t.line * count) / count = t.line := by
    rw [Int.add_mul_ediv_right _ _ hcount, Int.ediv_eq_zero_of_lt (by omega) (by omega)]
    omega
  have hmod : (markOf origin + t.line * count) % count = markOf origin := by
    rw [Int.add_mul_emod_self_right, Int.emod_eq_of_lt (by omega) (by omega)]
  simp [thenLine, Token.relined, Token.placedLine, Token.markedLine, Token.lineAfter, hdiv, hmod,
    originOf_markOf]

section

variable {P Q : Token → Prop} {f : Token → Int}

-- Trees with tokens on other lines hold what the trees hold.
mutual

theorem Expr.Obeys.relined (hf : ∀ t, P t → Q (t.relined f)) {e : Expr}
    (h : e.Obeys (.textual P)) : (e.relined f).Obeys (.textual Q) := by
  cases e with
  | assign name value => exact ⟨hf _ h.1, Expr.Obeys.relined hf h.2⟩
  | binary left operator right =>
    exact ⟨hf _ h.1, h.2.1, Expr.Obeys.relined hf h.2.2.1, Expr.Obeys.relined hf h.2.2.2⟩
  | call callee paren arguments =>
    exact ⟨hf _ h.1, Expr.Obeys.relined hf h.2.1, Expr.AllObey.relined hf h.2.2⟩
  | grouping inner => exact Expr.Obeys.relined hf (e := inner) h
  | literal value => exact h
  | logical left operator right => exact ⟨Expr.Obeys.relined hf h.1, Expr.Obeys.relined hf h.2⟩
  | unary operator operand => exact ⟨h.1, Expr.Obeys.relined hf h.2⟩
  | «variable» name => exact hf _ h

theorem Expr.AllObey.relined (hf : ∀ t, P t → Q (t.relined f)) {es : List Expr}
    (h : Expr.AllObey (.textual P) es) : Expr.AllObey (.textual Q) (Expr.allRelined f es) := by
  cases es with
  | nil => trivial
  | cons e es => exact ⟨Expr.Obeys.relined hf h.1, Expr.AllObey.relined hf h.2⟩

end

mutual

theorem Stmt.Obeys.relined (hf : ∀ t, P t → Q (t.relined f)) {s : Stmt}
    (h : s.Obeys (.textual P)) : (s.relined f).Obeys (.textual Q) := by
  cases s with
  | block body => exact Stmt.AllObey.relined hf (show Stmt.AllObey _ body from h)
  | breakLoop keyword => exact hf _ h
  | expression value => exact Expr.Obeys.relined hf (e := value) h
  | function name parameters body => exact Stmt.AllObey.relined hf (show Stmt.AllObey _ body from h)
  | branch condition yes no =>
    cases no with
    | none => exact ⟨Expr.Obeys.relined hf h.1, Stmt.Obeys.relined hf h.2⟩
    | some no =>
      exact ⟨Expr.Obeys.relined hf h.1, Stmt.Obeys.relined hf h.2.1, Stmt.Obeys.relined hf h.2.2⟩
  | print value => exact Expr.Obeys.relined hf (e := value) h
  | returnFrom keyword value =>
    cases value with
    | none => exact hf _ h
    | some value => exact ⟨hf _ h.1, Expr.Obeys.relined hf h.2⟩
  | declare name initializer =>
    cases initializer with
    | none => trivial
    | some value => exact Expr.Obeys.relined hf (e := value) h
  | loop condition body => exact ⟨Expr.Obeys.relined hf h.1, Stmt.Obeys.relined hf h.2⟩
  | jump kind => exact h

theorem Stmt.AllObey.relined (hf : ∀ t, P t → Q (t.relined f)) {ss : List Stmt}
    (h : Stmt.AllObey (.textual P) ss) : Stmt.AllObey (.textual Q) (Stmt.allRelined f ss) := by
  cases ss with
  | nil => trivial
  | cons s ss => exact ⟨Stmt.Obeys.relined hf h.1, Stmt.AllObey.relined hf h.2⟩

end

theorem Value.Obeys.relined (hf : ∀ t, P t → Q (t.relined f)) {v : Value}
    (h : v.Obeys (.textual P)) : (v.relined f).Obeys (.textual Q) := by
  cases v with
  | undefined u => exact absurd h not_false
  | function fn => exact Stmt.AllObey.relined hf (show Stmt.AllObey _ fn.body from h)
  | _ => trivial

theorem Heap.All.relined (hf : ∀ t, P t → Q (t.relined f)) {heap : Heap}
    (h : heap.All (Value.Obeys (.textual P))) :
    (heap.relined f).All (Value.Obeys (.textual Q)) := by
  intro id scope hscope b hb
  rw [Heap.getElem?_relined] at hscope
  obtain ⟨old, hold, rfl⟩ := Option.map_eq_some_iff.1 hscope
  obtain ⟨binding, hbinding, rfl⟩ := List.mem_map.1 hb
  exact Value.Obeys.relined hf (h id old hold binding hbinding)

end

namespace Run

-- What later programs can see of a state, apart from lines.
def State.unlined (s : State) : State :=
  (s.relined fun _ => 0).started

@[simp] theorem State.relined_relined (f g : Token → Int) (s : State) :
    (s.relined f).relined g = s.relined (thenLine f g) := by
  simp [State.relined]

@[simp] theorem State.relined_line (s : State) : s.relined Token.line = s := by
  simp [State.relined]

-- The programs with the tokens of each moved on by as many lines as are given for it.
def movedBy (lines : Option Nat → Int) (programs : List (List Stmt)) : List (List Stmt) :=
  programs.mapIdx fun j => Stmt.allRelined (Token.lineAfter (lines (some j)))

-- The programs with the tokens of each marked by its place.
def marked (programs : List (List Stmt)) : List (List Stmt) :=
  programs.mapIdx fun j => Stmt.allRelined (Token.markedLine (programs.length + 1) (some j))

theorem movedBy_zero (programs : List (List Stmt)) : movedBy (fun _ => 0) programs = programs := by
  apply List.ext_getElem
  · simp [movedBy]
  · intro i hi _
    simp [movedBy]

theorem map_marked (lines : Option Nat → Int) (programs : List (List Stmt)) :
    (marked programs).map (Stmt.allRelined (Token.placedLine (programs.length + 1) lines)) =
      movedBy lines programs := by
  apply List.ext_getElem
  · simp [marked, movedBy]
  · intro i hi _
    have hmark : markOf (some i) < programs.length + 1 := by simpa [marked, markOf] using hi
    simp [marked, movedBy, thenLine_marked_placed hmark]

theorem runEach_movedBy (fuel : Nat) (programs : List (List Stmt)) (s : State)
    (lines : Option Nat → Int) (hlines : lines none = 0) :
    let count := programs.length + 1
    let result := runEach fuel (marked programs) (s.relined (Token.markedLine count none))
    runEach fuel (movedBy lines programs) s =
      (result.1.relined (Token.placedLine count lines),
        result.2.1.relined (Token.placedLine count lines), result.2.2) := by
  have hs : (s.relined (Token.markedLine (programs.length + 1) none)).relined
      (Token.placedLine (programs.length + 1) lines) = s := by
    have hnone : markOf none < programs.length + 1 := Nat.succ_pos _
    rw [State.relined_relined, thenLine_marked_placed hnone, hlines, Token.lineAfter_zero,
      State.relined_line]
  have hrun := runEach_relined (Token.placedLine (programs.length + 1) lines) fuel
    (marked programs) (s.relined (Token.markedLine (programs.length + 1) none))
  rw [map_marked, hs] at hrun
  exact hrun

-- An error in a run of marked programs is at a token that keeps the mark of where it is from.
theorem mark_of_failed {fuel : Nat} {programs : List (List Stmt)} {s : State}
    {earlier : Token → Prop} {holds : Nat → Token → Prop}
    (hprograms : ∀ j program, programs[j]? = some program →
      Stmt.AllObey (.textual (holds j)) program)
    (hs : s.heap.All (Value.Obeys (.textual earlier))) {e : RuntimeError}
    (he : (runEach fuel (marked programs)
      (s.relined (Token.markedLine (programs.length + 1) none))).1 = .failed e) :
    ∃ origin t, markOf origin < programs.length + 1 ∧
      e.token = t.relined (Token.markedLine (programs.length + 1) origin) ∧
      (origin = none ∧ earlier t ∨ ∃ j, origin = some j ∧ holds j t) := by
  let traced (u : Token) : Prop := ∃ origin t, markOf origin < programs.length + 1 ∧
    u = t.relined (Token.markedLine (programs.length + 1) origin) ∧
    (origin = none ∧ earlier t ∨ ∃ j, origin = some j ∧ holds j t)
  have hheap : (s.relined (Token.markedLine (programs.length + 1) none)).heap.All
      (Value.Obeys (.textual traced)) :=
    hs.relined fun t ht => ⟨none, t, by simp [markOf], rfl, .inl ⟨rfl, ht⟩⟩
  have hmarked : Stmt.AllObey (.textual traced) (marked programs).flatten := by
    refine Stmt.allObey_iff.2 fun stmt hstmt => ?_
    obtain ⟨program, hprogram, hmem⟩ := List.mem_flatten.1 hstmt
    obtain ⟨j, hj, rfl⟩ := List.mem_mapIdx.1 hprogram
    have hobeys := Stmt.AllObey.relined (Q := traced)
      (f := Token.markedLine (programs.length + 1) (some j))
      (fun t ht => ⟨some j, t, by simpa [markOf] using hj, rfl, .inr ⟨j, rfl, ht⟩⟩)
      (hprograms j programs[j] (List.getElem?_eq_getElem hj))
    exact Stmt.allObey_iff.1 hobeys stmt hmem
  have hended := (run_allowed fuel hmarked hheap).1
  rw [run_flatten, he] at hended
  exact hended

-- Programs that are moved further down do what they do where they are, and only the lines of
-- their tokens change. An error is from one of the programs, or from what was there before, and
-- moves with it wherever the programs are moved.
theorem runEach_moved (fuel : Nat) (programs : List (List Stmt)) (s : State)
    {earlier : Token → Prop} {holds : Nat → Token → Prop}
    (hprograms : ∀ j program, programs[j]? = some program →
      Stmt.AllObey (.textual (holds j)) program)
    (hs : s.heap.All (Value.Obeys (.textual earlier))) :
    ∃ origin : Option Nat,
      (∀ e, (runEach fuel programs s).1 = .failed e →
        origin = none ∧ earlier e.token ∨ ∃ j, origin = some j ∧ holds j e.token) ∧
      ∀ lines : Option Nat → Int, lines none = 0 →
        (runEach fuel (movedBy lines programs) s).1 =
            (runEach fuel programs s).1.relined (Token.lineAfter (lines origin)) ∧
          (runEach fuel (movedBy lines programs) s).2.1.unlined =
            (runEach fuel programs s).2.1.unlined ∧
          (runEach fuel (movedBy lines programs) s).2.2 = (runEach fuel programs s).2.2 := by
  have hplain := runEach_movedBy fuel programs s (fun _ => 0) rfl
  have hmoved (lines : Option Nat → Int) (hlines : lines none = 0) :=
    runEach_movedBy fuel programs s lines hlines
  have hfailed (e : RuntimeError) (he : (runEach fuel (marked programs)
      (s.relined (Token.markedLine (programs.length + 1) none))).1 = .failed e) :=
    mark_of_failed hprograms hs he
  rw [movedBy_zero] at hplain
  dsimp only at hplain hmoved
  generalize runEach fuel (marked programs) _ = result at hplain hmoved hfailed
  obtain ⟨ending, last, text⟩ := result
  have hunlined (f g : Token → Int) : (last.relined f).unlined = (last.relined g).unlined := by
    rw [State.unlined, State.relined_relined, State.unlined, State.relined_relined]
    rfl
  cases ending with
  | failed e =>
    obtain ⟨origin, t, hmark, ht, hfrom⟩ := hfailed e rfl
    have hplaced (lines : Option Nat → Int) :
        e.token.relined (Token.placedLine (programs.length + 1) lines) =
          t.relined (Token.lineAfter (lines origin)) := by
      rw [ht, Token.relined_relined, thenLine_marked_placed hmark]
    refine ⟨origin, fun e' he' => ?_, fun lines hlines => ?_⟩
    · rw [hplain] at he'
      obtain rfl := Ending.failed.inj he'
      simpa [RuntimeError.relined, hplaced] using hfrom
    · rw [hmoved lines hlines, hplain]
      refine ⟨?_, hunlined _ _, rfl⟩
      simp [Ending.relined, RuntimeError.relined, hplaced]
  | _ =>
    refine ⟨none, fun e' he' => ?_, fun lines hlines => ?_⟩
    · rw [hplain] at he'
      cases he'
    · rw [hmoved lines hlines, hplain]
      exact ⟨rfl, hunlined _ _, rfl⟩

end Run

end Lox
