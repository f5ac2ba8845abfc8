import Lox.Proofs.Syntax.Depth

namespace Lox.Syntax

open Rule

-- A rule that leaves some of its tokens has done so without a look at what follows them, and at
-- what marks the end.
structure Rule.Local {α : Type} (r : Rule α) : Prop where
  shrinks : r.Shrinks
  same : ∀ {stop tokens}, (r stop tokens).rest ≠ [] → ∀ stop' more,
    r stop' (tokens ++ more) =
      ⟨(r stop tokens).value, (r stop tokens).rest ++ more, (r stop tokens).errors⟩

section

variable {α β : Type} {tokens : List Token}

theorem recover_append (h : recover tokens ≠ []) (more : List Token) :
    recover (tokens ++ more) = recover tokens ++ more := by
  induction tokens with
  | nil => exact absurd rfl h
  | cons t ts ih =>
    rw [recover] at h
    rw [List.cons_append, recover, recover]
    cases ts with
    | nil =>
      split at h
      · exact absurd rfl h
      · exact absurd rfl h
    | cons u us =>
      rw [List.cons_append, List.head?_cons, List.head?_cons]
      split
      · rfl
      · next hnot =>
        rw [List.head?_cons, if_neg hnot] at h
        exact ih h

theorem Rule.Local.bind {r : Rule α} {f : α → Rule β} (hr : r.Local) (hf : ∀ a, (f a).Local) :
    (r >>= f).Local := by
  refine ⟨hr.shrinks.bind fun a => (hf a).shrinks, fun {stop tokens} hrest stop' more => ?_⟩
  have hsame := @Local.same _ r hr stop tokens
  rcases hrun : r stop tokens with ⟨_ | a, middle, errors⟩ <;> rw [hrun] at hsame
  · rw [run_bind_none f hrun] at hrest ⊢
    rw [run_bind_none f (hsame hrest stop' more)]
  · rw [run_bind hrun] at hrest ⊢
    have hmiddle : middle ≠ [] := by
      rintro rfl
      exact hrest (List.suffix_nil.1 ((hf a).shrinks stop []))
    rw [run_bind (hsame hmiddle stop' more), (hf a).same hrest stop' more]
    rfl

theorem stable_local : Rule.Stable (fun _ => True) Local where
  pure a := ⟨stable_shrinks.pure a, fun _ _ _ => rfl⟩
  bind hr hf := hr.bind hf
  here hf := by
    refine Local.bind ⟨fun _ tokens => List.suffix_refl tokens, fun {stop tokens} hrest _ more => ?_⟩
      fun t => hf t trivial
    obtain ⟨t, ts, rfl⟩ := List.exists_cons_of_ne_nil hrest
    rfl
  peek := by
    refine ⟨stable_shrinks.peek, fun {stop tokens} hrest _ more => ?_⟩
    obtain ⟨t, ts, rfl⟩ := List.exists_cons_of_ne_nil hrest
    rfl
  taken kinds f hnone hsome := by
    refine Local.bind ⟨stable_shrinks.take? kinds, fun {stop tokens} hrest _ more => ?_⟩ fun t => ?_
    · cases tokens with
      | nil => exact absurd rfl hrest
      | cons t ts =>
        rw [List.cons_append, take?, take?]
        split <;> rfl
    · cases t with
      | none => exact hnone
      | some t => exact hsome t trivial
  takeAll kinds := by
    refine ⟨stable_shrinks.takeAll kinds, fun {stop tokens} hrest _ more => ?_⟩
    have hne : tokens.dropWhile (·.kind ∈ kinds) ≠ [] := hrest
    have hshort : (tokens.takeWhile (·.kind ∈ kinds)).length ≠ tokens.length := by
      intro hlen
      have hsplit := congrArg List.length
        (List.takeWhile_append_dropWhile (p := (·.kind ∈ kinds)) (l := tokens))
      rw [List.length_append, hlen] at hsplit
      exact hne (List.length_eq_zero_iff.1 (by omega))
    refine takeAll_eq_some.2 ⟨?_, ?_, rfl⟩
    · rw [List.takeWhile_append, if_neg hshort]
    · rw [List.dropWhile_append, if_neg (by simpa using hne)]
      rfl
  complain fault _ := ⟨stable_shrinks.complain fault trivial, fun _ _ _ => rfl⟩
  fail fault := by
    refine ⟨stable_shrinks.fail fault, fun {stop tokens} hrest _ more => ?_⟩
    obtain ⟨t, ts, rfl⟩ := List.exists_cons_of_ne_nil hrest
    rfl
  recovering {r} hr := by
    refine ⟨stable_shrinks.recovering hr.shrinks, fun {stop tokens} hrest stop' more => ?_⟩
    have hsame := @Local.same _ r hr stop tokens
    unfold Syntax.recovering at hrest ⊢
    rcases hrun : r stop tokens with ⟨_ | s, rest, errors⟩ <;> rw [hrun] at hsame hrest
    · have hne : rest ≠ [] := by
        rintro rfl
        exact hrest rfl
      rw [hsame hne stop' more]
      dsimp only
      rw [recover_append hrest]
    · rw [hsame hrest stop' more]

end

end Lox.Syntax
