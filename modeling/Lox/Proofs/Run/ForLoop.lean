import Lox.Proofs.Run.ForRounds
import Lox.Proofs.Syntax.SoundStatement

namespace Lox

namespace Syntax

-- The parts of a `for` loop behind its keyword.
inductive ReadsFor : List Token → Option Stmt → Option Expr → Option Expr → Stmt → Prop
  | mk {opening semicolon closing : Token} {initializer : Span (Option Stmt)}
      {condition increment : Span (Option Expr)} {body : Span Stmt} {tail : Tail}
      (ho : opening.kind = .leftParen) (hi : ReadsInitializer initializer)
      (hc : ReadsOptional condition) (hs : semicolon.kind = .semicolon)
      (hn : ReadsOptional increment) (hp : closing.kind = .rightParen)
      (hb : ReadsStmt .nested tail body) :
      ReadsFor (opening :: (initializer.tokens ++ condition.tokens ++
          semicolon :: (increment.tokens ++ closing :: body.tokens)))
        initializer.tree condition.tree increment.tree body.tree

theorem contained_forLoop (initializer : Option Stmt) (condition increment : Option Expr)
    {body : Stmt} (h : body.Contained) :
    (forLoop initializer condition increment body).Contained := by
  cases initializer with
  | some _ => trivial
  | none =>
    cases increment with
    | some _ => trivial
    | none => exact h

-- What stands in a branch or a loop declares nothing but in scopes of its own.
theorem ReadsStmt.contained {tail : Tail} {s : Span Stmt} (h : ReadsStmt .nested tail s) :
    s.tree.Contained := by
  generalize hslot : Slot.nested = slot at h
  induction h with
  | bare hs => cases hs with | mk _ _ => trivial
  | print _ _ _ | returnFrom _ _ _ | breakLoop _ _ | block _ _ _ => trivial
  | loop _ _ _ ih => exact ih hslot
  | forLoop _ _ _ _ _ _ _ _ ih => exact contained_forLoop _ _ _ (ih hslot)
  | ifThen _ _ _ ih => exact ih rfl
  | ifElse _ _ _ _ _ ih ih' => exact ⟨ih rfl, ih' hslot⟩
  | weaken _ ih => exact ih hslot
  | free _ _ | declared _ _ | function _ _ _ _ _ _ _ _ _ => cases hslot

theorem ReadsStmt.for_clauses {tail : Tail} {s : Span Stmt} (h : ReadsStmt .nested tail s)
    {keyword : Token} {tokens : List Token} (hs : s.tokens = keyword :: tokens)
    (hk : keyword.kind = .forKw) :
    ∃ initializer condition increment body,
      ReadsFor tokens initializer condition increment body ∧
        s.tree = Syntax.forLoop initializer condition increment body := by
  generalize hslot : Slot.nested = slot at h
  induction h with
  | bare hb =>
    obtain ⟨t, ts, ht, hstart⟩ := hb.head
    obtain ⟨rfl, -⟩ := List.cons.inj (ht.symm.trans hs)
    simp [expressionStarters, hk] at hstart
  | print hk' _ _ | returnFrom hk' _ _ | breakLoop hk' _ | block hk' _ _ | loop hk' _ _
  | ifThen hk' _ _ | ifElse hk' _ _ _ _ =>
    obtain ⟨rfl, -⟩ := List.cons.inj hs
    simp [hk] at hk'
  | forLoop _ ho hi hc hs' hn hp hb =>
    obtain ⟨rfl, rfl⟩ := List.cons.inj hs
    exact ⟨_, _, _, _, .mk ho hi hc hs' hn hp hb, rfl⟩
  | weaken _ ih => exact ih hs hslot
  | free _ _ | declared _ _ | function _ _ _ _ _ _ _ _ _ => cases hslot

end Syntax

namespace Run

-- Code that does the same from a state. The scopes that it creates need not be the same, but those
-- that were there before stand for themselves, and so do all functions.
def SameFrom (m m' : Eval Completion) (s : State) : Prop :=
  ∃ p : Pairing, (∀ id < s.heap.size, p.scopes id id ∧ ¬ p.hollow id) ∧
    (∀ i j, p.identities i j ↔ i = j) ∧ Answers (Completion.Paired p) (m s).1 (m' s).1 ∧
    (m s).2.printed = (m' s).2.printed ∧ Heap.Paired p (m s).2.heap (m' s).2.heap

-- Whatever the parser accepts as a `for` loop has a tree that does, from every state, what the
-- clauses of the loop mean. The scope that a round has in the tree is empty when its body has run.
theorem for_loop_meaning {depth : Nat} {stop keyword : Token} {tokens rest : List Token}
    {tree : Stmt} (hk : keyword.kind = .forKw) (hdepth : (keyword :: tokens).length ≤ depth)
    (h : Syntax.statement depth stop (keyword :: tokens) = ⟨some tree, rest, []⟩) :
    ∃ clauses initializer condition increment body, tokens = clauses ++ rest ∧
      Syntax.ReadsFor clauses initializer condition increment body ∧
      ∀ fuel (s : State), s.Sound →
        SameFrom (exec fuel tree) (execFor fuel initializer condition increment body) s ∧
          (exec fuel body s.enclosed).2.heap[s.heap.size]? = some ⟨some s.current, []⟩ := by
  obtain ⟨w, tail, hsplit, hw, -⟩ := (Syntax.sound_statement_and_block depth).1 _ _ _ _ hdepth h
  obtain ⟨t, ts, hhead, -⟩ := hw.head
  obtain rfl : w = t :: ts := hhead
  obtain ⟨rfl, rfl⟩ := List.cons.inj hsplit
  obtain ⟨initializer, condition, increment, body, hparts, htree⟩ := hw.for_clauses rfl hk
  refine ⟨ts, initializer, condition, increment, body, rfl, hparts, fun fuel s hs => ?_⟩
  obtain rfl : tree = Syntax.forLoop initializer condition increment body := htree
  have hbody : body.Contained := by
    cases hparts with | mk _ _ _ _ _ _ hb => exact hb.contained
  obtain ⟨p, hext, hstate, -, -, hanswer⟩ := matching_for s.paired_refl
    ⟨Pairing.scopes_diagonal.2 rfl, Iff.rfl, Iff.rfl⟩ hs not_false fuel initializer condition increment hbody
  obtain ⟨text, hleft, hright⟩ := hstate.printed
  have hscopes : ∀ id < s.heap.size, p.scopes id id ∧ ¬ p.hollow id := fun id hid =>
    ⟨hext.scopes id id hid (Pairing.scopes_diagonal.2 rfl), (hext.hollow id hid).not.2 not_false⟩
  exact ⟨⟨p, hscopes, fun i j => hext.identities.trans Pairing.identities_diagonal, hanswer,
    hleft.trans hright.symm, hstate.heap⟩, scope_of_round hs fuel hbody⟩

-- Behind a `for`: `(var x = true; true; x = nil) if (x) print x; else break;`.
def clausesOfBreak : List Token :=
  [⟨.leftParen, "(", .nil, 1⟩, ⟨.varKw, "var", .nil, 1⟩, ⟨.identifier, "x", .nil, 1⟩,
    ⟨.equal, "=", .nil, 1⟩, ⟨.trueKw, "true", .nil, 1⟩, ⟨.semicolon, ";", .nil, 1⟩,
    ⟨.trueKw, "true", .nil, 1⟩, ⟨.semicolon, ";", .nil, 1⟩, ⟨.identifier, "x", .nil, 1⟩,
    ⟨.equal, "=", .nil, 1⟩, ⟨.nilKw, "nil", .nil, 1⟩, ⟨.rightParen, ")", .nil, 1⟩,
    ⟨.ifKw, "if", .nil, 1⟩, ⟨.leftParen, "(", .nil, 1⟩, ⟨.identifier, "x", .nil, 1⟩,
    ⟨.rightParen, ")", .nil, 1⟩, ⟨.printKw, "print", .nil, 1⟩, ⟨.identifier, "x", .nil, 1⟩,
    ⟨.semicolon, ";", .nil, 1⟩, ⟨.elseKw, "else", .nil, 1⟩, ⟨.breakKw, "break", .nil, 1⟩,
    ⟨.semicolon, ";", .nil, 1⟩]

def whileOfBreak : Stmt :=
  .block [.declare ⟨.identifier, "x", .nil, 1⟩ (some (.literal (.bool true))),
    .loop (.literal (.bool true)) (.block
      [.branch (.variable ⟨.identifier, "x", .nil, 1⟩)
          (.print (.variable ⟨.identifier, "x", .nil, 1⟩))
          (some (.breakLoop ⟨.breakKw, "break", .nil, 1⟩)),
        .expression (.assign ⟨.identifier, "x", .nil, 1⟩ (.literal .nil))])]

-- The first round prints and takes its step, and the second one breaks.
theorem for_loop_meaning_break :
    (exec 3 whileOfBreak (.initial fun _ => 0)).2.printed = "true\n" ∧
      ∃ initializer condition increment body,
        Syntax.ReadsFor clausesOfBreak initializer condition increment body ∧
          SameFrom (exec 3 whileOfBreak) (execFor 3 initializer condition increment body)
            (.initial fun _ => 0) := by
  have hread : Syntax.statement 23 ⟨.eof, "", .nil, 1⟩
      (⟨.forKw, "for", .nil, 1⟩ :: clausesOfBreak) = ⟨some whileOfBreak, [], []⟩ := rfl
  obtain ⟨clauses, initializer, condition, increment, body, hclauses, hreads, hsame⟩ :=
    for_loop_meaning rfl (by decide) hread
  rw [List.append_nil] at hclauses
  exact ⟨by decide +kernel, initializer, condition, increment, body, hclauses ▸ hreads,
    (hsame 3 _ (sound_initial _)).1⟩

end Run

end Lox
