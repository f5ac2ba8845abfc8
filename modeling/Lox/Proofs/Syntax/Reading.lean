import Lox.Syntax.Expression

namespace Lox.Syntax

-- A reading with errors that were found before it.
def Reading.after {α : Type} (errors : List SyntaxError) (r : Reading α) : Reading α :=
  ⟨r.value, r.rest, errors ++ r.errors⟩

@[simp] theorem Reading.after_mk {α : Type} (first second : List SyntaxError) (value : Option α)
    (rest : List Token) :
    Reading.after first ⟨value, rest, second⟩ = ⟨value, rest, first ++ second⟩ := rfl

@[simp] theorem Reading.after_after {α : Type} (first second : List SyntaxError) (r : Reading α) :
    (r.after second).after first = r.after (first ++ second) := by
  simp [Reading.after]

namespace Rule

variable {α β : Type} {stop : Token} {tokens rest : List Token} {errors : List SyntaxError}

@[simp] theorem pure_eq_some {a b : α} :
    (pure a : Rule α) stop tokens = ⟨some b, rest, errors⟩ ↔
      a = b ∧ tokens = rest ∧ errors = [] := by
  simp only [pure, Reading.mk.injEq, Option.some.injEq]
  exact and_congr_right fun _ => and_congr_right fun _ => eq_comm

-- A sequence of rules gives a value if both give one; what the first leaves is what the second
-- reads.
theorem bind_eq_some {r : Rule α} {f : α → Rule β} {b : β} :
    (r >>= f) stop tokens = ⟨some b, rest, errors⟩ ↔
      ∃ a middle first second, r stop tokens = ⟨some a, middle, first⟩ ∧
        f a stop middle = ⟨some b, rest, second⟩ ∧ errors = first ++ second := by
  simp only [bind]
  cases r stop tokens with
  | mk value middle first =>
    cases value with
    | none => simp
    | some a =>
      constructor
      · intro h
        dsimp only at h
        cases hf : f a stop middle with
        | mk value rest second =>
          rw [hf] at h
          obtain ⟨rfl, rfl, rfl⟩ := Reading.mk.inj h
          exact ⟨a, middle, first, second, rfl, hf, rfl⟩
      · rintro ⟨a', middle', first', second, h, hf, rfl⟩
        obtain ⟨ha, rfl, rfl⟩ := Reading.mk.inj h
        obtain rfl := Option.some.inj ha
        simp [hf]

theorem bind_eq_clean {r : Rule α} {f : α → Rule β} {b : β} :
    (r >>= f) stop tokens = ⟨some b, rest, []⟩ ↔
      ∃ a middle, r stop tokens = ⟨some a, middle, []⟩ ∧ f a stop middle = ⟨some b, rest, []⟩ := by
  rw [bind_eq_some]
  constructor
  · rintro ⟨a, middle, first, second, hr, hf, he⟩
    obtain ⟨rfl, rfl⟩ := List.append_eq_nil_iff.1 he.symm
    exact ⟨a, middle, hr, hf⟩
  · rintro ⟨a, middle, hr, hf⟩
    exact ⟨a, middle, [], [], hr, hf, rfl⟩

-- Once the first rule is known to give a value, the second goes on from there.
theorem run_bind {r : Rule α} {f : α → Rule β} {a : α} {middle : List Token}
    {first : List SyntaxError} (hr : r stop tokens = ⟨some a, middle, first⟩) :
    (r >>= f) stop tokens = (f a stop middle).after first := by
  simp only [bind, hr]
  rfl

theorem run_bind_none {r : Rule α} (f : α → Rule β)
    (hr : r stop tokens = ⟨none, rest, errors⟩) :
    (r >>= f) stop tokens = ⟨none, rest, errors⟩ := by
  simp only [bind, hr]

theorem map_eq_some {r : Rule α} {f : α → β} {b : β} :
    (f <$> r) stop tokens = ⟨some b, rest, errors⟩ ↔
      ∃ a, r stop tokens = ⟨some a, rest, errors⟩ ∧ f a = b := by
  rw [map_eq_pure_bind, bind_eq_some]
  constructor
  · rintro ⟨a, middle, first, second, h, hf, rfl⟩
    obtain ⟨hb, rfl, rfl⟩ := pure_eq_some.1 hf
    exact ⟨a, by simpa using h, hb⟩
  · rintro ⟨a, h, hb⟩
    exact ⟨a, rest, errors, [], h, pure_eq_some.2 ⟨hb, rfl, rfl⟩, by simp⟩

theorem run_map {r : Rule α} (f : α → β) {a : α} (hr : r stop tokens = ⟨some a, rest, errors⟩) :
    (f <$> r) stop tokens = ⟨some (f a), rest, errors⟩ :=
  map_eq_some.2 ⟨a, hr, rfl⟩

@[simp] theorem here_eq_some {t : Token} :
    here stop tokens = ⟨some t, rest, errors⟩ ↔
      tokens.headD stop = t ∧ tokens = rest ∧ errors = [] := by
  simp only [here, Reading.mk.injEq, Option.some.injEq]
  exact and_congr_right fun _ => and_congr_right fun _ => eq_comm

@[simp] theorem peek_eq_some {kind : Option TokenKind} :
    peek stop tokens = ⟨some kind, rest, errors⟩ ↔
      tokens.head?.map Token.kind = kind ∧ tokens = rest ∧ errors = [] := by
  simp only [peek, Reading.mk.injEq, Option.some.injEq]
  exact and_congr_right fun _ => and_congr_right fun _ => eq_comm

@[simp] theorem complain_eq_some {token : Token} {fault : SyntaxFault} {u : Unit} :
    complain token fault stop tokens = ⟨some u, rest, errors⟩ ↔
      tokens = rest ∧ errors = [⟨token, fault⟩] := by
  simp only [complain, Reading.mk.injEq, true_and]
  exact and_congr_right fun _ => eq_comm

@[simp] theorem fail_eq_some {fault : SyntaxFault} {a : α} :
    ¬ fail fault stop tokens = ⟨some a, rest, errors⟩ := by
  simp [fail]

@[simp] theorem takeAll_eq_some {kinds : List TokenKind} {ts : List Token} :
    takeAll kinds stop tokens = ⟨some ts, rest, errors⟩ ↔
      tokens.takeWhile (·.kind ∈ kinds) = ts ∧ tokens.dropWhile (·.kind ∈ kinds) = rest ∧
        errors = [] := by
  simp only [takeAll, Reading.mk.injEq, Option.some.injEq]
  exact and_congr_right fun _ => and_congr_right fun _ => eq_comm

-- The kind of the first token, if there is one, is none of the given kinds.
def Free (kinds : List TokenKind) (tokens : List Token) : Prop :=
  ∀ t ∈ tokens.head?, t.kind ∉ kinds

@[simp] theorem free_nil (kinds : List TokenKind) : Free kinds [] := by
  simp [Free]

@[simp] theorem free_cons {kinds : List TokenKind} {t : Token} {ts : List Token} :
    Free kinds (t :: ts) ↔ t.kind ∉ kinds := by
  simp [Free]

theorem take?_eq_none {kinds : List TokenKind} :
    take? kinds stop tokens = ⟨some none, rest, errors⟩ ↔
      tokens = rest ∧ Free kinds tokens ∧ errors = [] := by
  cases tokens with
  | nil => simp [take?, eq_comm]
  | cons t ts =>
    by_cases ht : t.kind ∈ kinds
    · simp [take?, ht]
    · simp [take?, ht, eq_comm]

theorem take?_eq_some {kinds : List TokenKind} {t : Token} :
    take? kinds stop tokens = ⟨some (some t), rest, errors⟩ ↔
      tokens = t :: rest ∧ t.kind ∈ kinds ∧ errors = [] := by
  cases tokens with
  | nil => simp [take?]
  | cons s ts =>
    by_cases hs : s.kind ∈ kinds
    · simp only [take?, hs, if_true, Reading.mk.injEq, Option.some.injEq, List.cons.injEq]
      constructor
      · rintro ⟨rfl, rfl, rfl⟩
        exact ⟨⟨rfl, rfl⟩, hs, rfl⟩
      · rintro ⟨⟨rfl, rfl⟩, -, rfl⟩
        exact ⟨rfl, rfl, rfl⟩
    · simp only [take?, hs, if_false, Reading.mk.injEq, Option.some.injEq, reduceCtorEq,
        false_and, List.cons.injEq, false_iff]
      rintro ⟨⟨rfl, -⟩, ht, -⟩
      exact hs ht

theorem take?_free {kinds : List TokenKind} (h : Free kinds tokens) :
    take? kinds stop tokens = ⟨some none, tokens, []⟩ :=
  take?_eq_none.2 ⟨rfl, h, rfl⟩

theorem take?_cons {kinds : List TokenKind} {t : Token} (h : t.kind ∈ kinds) :
    take? kinds stop (t :: rest) = ⟨some (some t), rest, []⟩ :=
  take?_eq_some.2 ⟨rfl, h, rfl⟩

theorem expect_eq_some {kind : TokenKind} {fault : SyntaxFault} {t : Token} :
    expect kind fault stop tokens = ⟨some t, rest, errors⟩ ↔
      tokens = t :: rest ∧ t.kind = kind ∧ errors = [] := by
  rw [expect, bind_eq_some]
  constructor
  · rintro ⟨_ | s, middle, first, second, hs, h, rfl⟩
    · simp at h
    · obtain ⟨rfl, hk, rfl⟩ := take?_eq_some.1 hs
      obtain ⟨rfl, rfl, rfl⟩ := pure_eq_some.1 h
      exact ⟨rfl, by simpa using hk, rfl⟩
  · rintro ⟨rfl, hk, rfl⟩
    exact ⟨some t, rest, [], [], take?_eq_some.2 ⟨rfl, by simp [hk], rfl⟩,
      pure_eq_some.2 ⟨rfl, rfl, rfl⟩, rfl⟩

theorem expect_cons {kind : TokenKind} {fault : SyntaxFault} {t : Token} (h : t.kind = kind) :
    expect kind fault stop (t :: rest) = ⟨some t, rest, []⟩ :=
  expect_eq_some.2 ⟨rfl, h, rfl⟩

theorem expect_free {kind : TokenKind} {fault : SyntaxFault} (h : Free [kind] tokens) :
    expect kind fault stop tokens = ⟨none, tokens, [⟨tokens.headD stop, fault⟩]⟩ := by
  rw [expect, run_bind (take?_free h)]
  rfl

theorem complain_run (token : Token) (fault : SyntaxFault) :
    complain token fault stop tokens = ⟨some (), tokens, [⟨token, fault⟩]⟩ := rfl

@[simp] theorem pure_run {a : α} : (pure a : Rule α) stop tokens = ⟨some a, tokens, []⟩ := rfl

end Rule

open Rule

-- The complaint about an item that `count` others precede in its list.
def remark (what : ListItem) (count : Nat) : Rule Unit :=
  if listLimit ≤ count then do complain (← here) (.tooMany what) else pure ()

-- A round of a list: the complaint, an item, and the rounds after a comma.
theorem items_succ {α : Type} (item : Rule α) (what : ListItem) (rounds count : Nat) :
    items item what (rounds + 1) count = (do
      remark what count
      let first ← item
      match ← take? [.comma] with
      | none => pure [first]
      | some _ => return first :: (← items item what rounds (count + 1))) := by
  let counted : Rule (List α) := do
    let first ← item
    match ← take? [.comma] with
    | none => pure [first]
    | some _ => return first :: (← items item what rounds (count + 1))
  rw [items]
  unfold remark
  split
  · exact (bind_assoc here (complain · (.tooMany what)) fun _ => counted).symm
  · exact (pure_bind () fun _ => counted).symm

end Lox.Syntax
