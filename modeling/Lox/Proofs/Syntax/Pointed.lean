import Lox.Proofs.Syntax.Stable
import Mathlib.Data.List.TakeWhile

namespace Lox.Syntax

open Rule

-- A rule that is given good tokens leaves good tokens and complains at good tokens.
def Rule.Keeps (good : Token → Prop) {α : Type} (r : Rule α) : Prop :=
  ∀ stop tokens, good stop → (∀ t ∈ tokens, good t) →
    (∀ t ∈ (r stop tokens).rest, good t) ∧ ∀ e ∈ (r stop tokens).errors, good e.token

section

variable {good : Token → Prop} {α β : Type}

theorem mem_of_mem_recover {t : Token} {tokens : List Token} (h : t ∈ recover tokens) :
    t ∈ tokens := by
  induction tokens with
  | nil => exact h
  | cons first rest ih =>
    rw [recover] at h
    split at h
    · exact List.mem_cons_of_mem first h
    · exact List.mem_cons_of_mem first (ih h)

theorem good_headD {stop : Token} {tokens : List Token} (hstop : good stop)
    (htokens : ∀ t ∈ tokens, good t) : good (tokens.headD stop) := by
  cases tokens with
  | nil => exact hstop
  | cons t ts => exact htokens t List.mem_cons_self

-- What follows a rule has to keep good tokens only for the values that the rule can answer.
theorem Rule.Keeps.bind_of {r : Rule α} {f : α → Rule β} {answers : α → Prop} (hr : r.Keeps good)
    (ha : ∀ stop tokens a, good stop → (∀ t ∈ tokens, good t) →
      (r stop tokens).value = some a → answers a)
    (hf : ∀ a, answers a → (f a).Keeps good) : (r >>= f).Keeps good := by
  intro stop tokens hstop htokens
  obtain ⟨hrest, herrors⟩ := hr stop tokens hstop htokens
  have hanswer := fun a => ha stop tokens a hstop htokens
  simp only [Bind.bind]
  rcases hrun : r stop tokens with ⟨_ | a, rest, errors⟩ <;> rw [hrun] at hrest herrors hanswer
  · exact ⟨hrest, herrors⟩
  · obtain ⟨hrest', herrors'⟩ := hf a (hanswer a rfl) stop rest hstop hrest
    exact ⟨hrest', List.forall_mem_append.2 ⟨herrors, herrors'⟩⟩

theorem keeps_take? (kinds : List TokenKind) : (take? kinds).Keeps good := by
  intro stop tokens _ htokens
  unfold take?
  cases tokens with
  | nil => exact ⟨htokens, List.forall_mem_nil _⟩
  | cons t ts =>
    dsimp only
    split
    · exact ⟨(List.forall_mem_cons.1 htokens).2, List.forall_mem_nil _⟩
    · exact ⟨htokens, List.forall_mem_nil _⟩

-- A token that is taken is one of those that are given.
theorem good_of_taken {kinds : List TokenKind} {stop : Token} {tokens : List Token}
    {taken : Option Token} (htokens : ∀ t ∈ tokens, good t)
    (h : (take? kinds stop tokens).value = some taken) : ∀ t ∈ taken, good t := by
  unfold take? at h
  split at h
  · obtain rfl := Option.some.inj h
    simp
  · split at h
    · obtain rfl := Option.some.inj h
      simpa using htokens _ List.mem_cons_self
    · obtain rfl := Option.some.inj h
      simp

theorem stable_keeps (good : Token → Prop) : Rule.Stable good (Keeps good) where
  pure a stop tokens _ htokens := ⟨htokens, List.forall_mem_nil _⟩
  bind hr hf := hr.bind_of (fun _ _ _ _ _ _ => trivial) fun a _ => hf a
  here hf := by
    refine Keeps.bind_of (fun stop tokens _ htokens => ⟨htokens, List.forall_mem_nil _⟩) ?_ hf
    intro stop tokens t hstop htokens ht
    obtain rfl := Option.some.inj ht
    exact good_headD hstop htokens
  peek stop tokens _ htokens := ⟨htokens, List.forall_mem_nil _⟩
  taken kinds f hnone hsome := by
    refine (keeps_take? kinds).bind_of (fun stop tokens taken _ htokens => good_of_taken htokens) ?_
    intro taken htaken
    cases taken with
    | none => exact hnone
    | some t => exact hsome t (htaken t rfl)
  takeAll kinds stop tokens _ htokens :=
    ⟨fun t ht => htokens t (List.dropWhile_subset _ ht), List.forall_mem_nil _⟩
  complain fault htoken stop tokens _ htokens :=
    ⟨htokens, List.forall_mem_singleton.2 htoken⟩
  fail fault stop tokens hstop htokens :=
    ⟨htokens, List.forall_mem_singleton.2 (good_headD hstop htokens)⟩
  recovering {r} hr stop tokens hstop htokens := by
    obtain ⟨hrest, herrors⟩ := hr stop tokens hstop htokens
    unfold Syntax.recovering
    rcases hrun : r stop tokens with ⟨_ | s, rest, errors⟩ <;> rw [hrun] at hrest herrors
    · exact ⟨fun t ht => hrest t (mem_of_mem_recover ht), herrors⟩
    · exact ⟨hrest, herrors⟩

end

-- The errors in a program are at tokens of the program, if one of them marks its end.
theorem token_mem_of_error {tokens : List Token} (hend : ∃ t ∈ tokens, t.kind = .eof)
    {e : SyntaxError} (h : e ∈ (parse tokens).errors) : e.token ∈ tokens := by
  have hbefore : ∀ t ∈ (splitAtEnd tokens).1, t ∈ tokens :=
    fun t ht => List.takeWhile_subset _ ht
  have hstop : (splitAtEnd tokens).2 ∈ tokens := by
    have hne : tokens.dropWhile (·.kind ≠ .eof) ≠ [] := by
      obtain ⟨last, hlast, hkind⟩ := hend
      intro hempty
      simpa [hkind] using List.dropWhile_eq_nil_iff.1 hempty last hlast
    obtain ⟨stop, rest, hdrop⟩ := List.exists_cons_of_ne_nil hne
    rw [splitAtEnd]
    simp only [hdrop, List.head?_cons, Option.getD_some]
    exact List.dropWhile_subset _ (hdrop ▸ List.mem_cons_self)
  have hstable := stable_keeps (· ∈ tokens)
  obtain ⟨hstatement, hblock⟩ := hstable.statement_and_block (splitAtEnd tokens).1.length
  have hdeclaration := hstable.declarationWith hstatement hblock (splitAtEnd tokens).1.length
  obtain ⟨-, herrors⟩ := hstable.declarations hdeclaration false (splitAtEnd tokens).1.length
    (splitAtEnd tokens).2 (splitAtEnd tokens).1 hstop hbefore
  exact herrors e h

end Lox.Syntax
