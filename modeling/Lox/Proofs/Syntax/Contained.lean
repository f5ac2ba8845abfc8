import Lox.Proofs.Syntax.Prolonged
import Lox.Proofs.Syntax.SimulatedStatement

namespace Lox.Syntax

open Rule

section

variable {tokens : List Token} {stop : Token}

theorem exists_ends (h : ∃ t ∈ tokens, t.kind = .eof) : ∃ stop more,
    Ends (unmarked tokens) stop ∧ tokens = unmarked tokens ++ stop :: more := by
  obtain ⟨t, ht, hkind⟩ := h
  induction tokens with
  | nil => cases ht
  | cons first tokens ih =>
    by_cases hfirst : first.kind = .eof
    · have hnone : unmarked (first :: tokens) = [] := by simp [unmarked, hfirst]
      rw [hnone]
      exact ⟨first, tokens, ⟨by simp, hfirst⟩, rfl⟩
    · have hmore : t ∈ tokens := (List.mem_cons.1 ht).resolve_left fun heq => hfirst (heq ▸ hkind)
      have hcons : unmarked (first :: tokens) = first :: unmarked tokens := by
        simp [unmarked, hfirst]
      obtain ⟨stop, more, hends, heq⟩ := ih hmore
      rw [hcons]
      refine ⟨stop, more, ⟨?_, hends.stop⟩, congrArg (first :: ·) heq⟩
      exact List.forall_mem_cons.2 ⟨hfirst, hends.before⟩

-- What is read up to the end leaves nothing.
theorem rest_declarations (depth : Nat) {rounds : Nat} (hr : tokens.length ≤ rounds) :
    (declarations (declaration depth) false rounds stop tokens).rest = [] := by
  induction rounds generalizing tokens with
  | zero => exact List.length_eq_zero_iff.1 (Nat.le_zero.1 hr)
  | succ rounds ih =>
    cases tokens with
    | nil => rfl
    | cons t ts =>
      have hless := consumes_declaration depth stop (t :: ts) (List.cons_ne_nil t ts)
      let plain := plainDeclaration (statement depth) (block depth) depth
      obtain ⟨value, rest, first, hrun⟩ := exists_recovering plain stop (t :: ts)
      obtain ⟨ss, left, second, hothers⟩ := exists_declarations plain false rounds stop rest
      rw [← declaration_eq] at hrun hothers
      rw [hrun, List.length_cons] at hless
      dsimp only at hless
      rw [List.length_cons] at hr
      have hrest := ih (by omega : rest.length ≤ rounds)
      rw [hothers] at hrest
      rw [declarations, run_bind (peek_eq_some.2 ⟨rfl, rfl, rfl⟩), if_neg (by simp), run_bind hrun,
        run_bind hothers]
      exact hrest

end

-- A walk that has seen nothing yet.
def Cursor.start : Cursor :=
  ⟨0, [], []⟩

-- Before the end a declaration is read up to a later place.
theorem Ends.declaration_forward {before : List Token} {stop : Token} (hends : Ends before stop)
    {cursor : Cursor} (hplace : cursor.place < before.length) (more : List Token) :
    ∃ value after, (∀ depth > before.length,
      Walk.declaration depth (before ++ stop :: more) cursor = (.value value, after)) ∧
      cursor.place < after.place ∧ after.place ≤ before.length := by
  let rest := before.drop cursor.place
  have hat : cursor.At before rest :=
    ⟨before.take cursor.place, (List.take_append_drop _ _).symm, by
      rw [List.length_take, Nat.min_eq_left hplace.le]⟩
  have hne : rest ≠ [] := fun h => by
    rw [List.drop_eq_nil_iff] at h
    omega
  have hlen : rest.length ≤ before.length := by simp [rest]
  let least := before.length + 1
  obtain ⟨after, hgo⟩ := Simulates.declaration (Nat.lt_succ_self before.length) before stop hends
    rest cursor hat hne hlen
  obtain ⟨value, left, errors, hread⟩ := exists_recovering
    (plainDeclaration (statement least) (block least) least) stop rest
  have hless := consumes_declaration least stop rest hne
  rw [declaration_eq, hread] at hgo hless
  have hstart := hat.place_add
  have hstop := hgo.place.place_add
  dsimp only at hless hstop
  refine ⟨value, after, fun depth hd => ?_, by omega, by omega⟩
  have hrun := hgo.run more
  rw [Walk.Prolonged.declaration hd _ _ (by simp [hrun, Outcome.of]), hrun]
  rfl

-- A program is read without a look beyond the first token that marks the end, and each
-- declaration reads something. So it is read in the same way whatever follows that token.
theorem program_contained {tokens : List Token} (h : ∃ t ∈ tokens, t.kind = .eof) :
    let last := (unmarked tokens).length
    ∃ cursor, cursor.place = last ∧ cursor.errors = (parse tokens).errors ∧
      (∀ e ∈ cursor.events, e.Within last) ∧
      ∀ others, tokens.take (last + 1) <+: others →
        (∀ depth > last,
          Walk.program depth others .start = (.value (parse tokens).statements, cursor)) ∧
        parse others = parse tokens ∧
        ∀ c : Cursor, c.place < last → ∃ value after,
          (∀ depth > last, Walk.declaration depth others c = (.value value, after)) ∧
            c.place < after.place ∧ after.place ≤ last := by
  obtain ⟨stop, more, hends, htokens⟩ := exists_ends h
  generalize unmarked tokens = before at hends htokens ⊢
  subst htokens
  have hparse (more : List Token) : parse (before ++ stop :: more) = readAll stop before :=
    parse_append more hends.before hends.stop
  have hat : Cursor.start.At before before := ⟨[], rfl, rfl⟩
  let least := before.length + 1
  obtain ⟨cursor, hgo⟩ := Simulates.program (Nat.lt_succ_self before.length) before stop hends
    before .start hat trivial (Nat.le_refl _)
  have hle : before.length ≤ least := Nat.le_succ _
  obtain ⟨left, hread⟩ := exists_readAll stop hle hle
  have hleft := @rest_declarations before stop least least hle
  rw [hread] at hgo hleft
  obtain ⟨es, hes, hall⟩ := hgo.events
  refine ⟨cursor, ?_, ?_, ?_, ?_⟩
  · have hplace := hgo.place.place_add
    dsimp only at hplace hleft
    rw [hleft] at hplace
    exact hplace
  · rw [hparse, hgo.errors]
    rfl
  · intro e he
    rw [hes] at he
    exact hall e (by simpa [Cursor.start] using he)
  · rintro _ ⟨others, rfl⟩
    have htake : (before ++ stop :: more).take (before.length + 1) = before ++ [stop] := by
      rw [List.append_cons, List.take_left' (by simp)]
    rw [htake, List.append_assoc, List.singleton_append, hparse, hparse]
    refine ⟨fun depth hd => ?_, rfl, fun c hc => hends.declaration_forward hc others⟩
    have hrun := hgo.run others
    rw [Walk.Prolonged.program hd _ _ (by simp [hrun, Outcome.of]), hrun]
    rfl

-- A function without a name, and a word behind the end.
theorem program_contained_nameless :
    let brace : Token := ⟨.rightBrace, "\x7d", .nil, 1⟩
    let whole : List Token := [⟨.funKw, "fun", .nil, 1⟩, brace, ⟨.eof, "", .nil, 1⟩]
    let tokens := whole ++ [⟨.identifier, "a", .nil, 1⟩]
    (∃ t ∈ tokens, t.kind = .eof) ∧
      ∃ cursor, cursor.place = 2 ∧ cursor.errors = [⟨brace, .functionName⟩] ∧
        (∀ e ∈ cursor.events, e.Within 2) ∧
        ∀ others, whole <+: others →
          (∀ depth > 2, Walk.program depth others .start = (.value [], cursor)) ∧
          parse others = ⟨[], [⟨brace, .functionName⟩]⟩ ∧
          ∀ c : Cursor, c.place < 2 → ∃ value after,
            (∀ depth > 2, Walk.declaration depth others c = (.value value, after)) ∧
              c.place < after.place ∧ after.place ≤ 2 := by
  intro brace whole tokens
  have hmark : ∃ t ∈ tokens, t.kind = .eof := ⟨⟨.eof, "", .nil, 1⟩, by decide, rfl⟩
  exact ⟨hmark, program_contained hmark⟩

end Lox.Syntax
