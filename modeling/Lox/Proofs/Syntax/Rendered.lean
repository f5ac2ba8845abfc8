import Lox.Proofs.Syntax.Sexp
import Lox.Syntax.Outline

namespace Lox.Syntax

-- A text that is cut into lines and put together again without loss.
structure Settled (text : List Char) : Prop where
  ne_nil : text ≠ []
  last : text.getLast? ≠ some '\n'
  breaks : ∀ c ∈ text, Text.isLineBreak c = true → c = '\n'

theorem join_cons (separator text : List Char) (others : List (List Char)) :
    join separator (text :: others) = text ++ others.flatMap (separator ++ ·) := by
  induction others generalizing text with
  | nil => simp [join]
  | cons other others ih =>
    rw [join, ih, List.flatMap_cons, List.append_assoc]
    exact List.cons_ne_nil other others

theorem form_cons (head : List Char) (parts : List (List Char)) :
    form (head :: parts) = '(' :: (head ++ (parts.flatMap (' ' :: ·) ++ [')'])) := by
  rw [form, join_cons, List.cons_append, List.append_assoc]
  rfl

section

variable {c : Char} {rest text : List Char}

theorem lines_newline (rest : List Char) : Text.lines ('\n' :: rest) = [] :: Text.lines rest := by
  rw [Text.lines]
  · rfl
  · rintro rest' h
    cases h

theorem lines_cons (hc : Text.isLineBreak c = false) (rest : List Char) :
    Text.lines (c :: rest) =
      match Text.lines rest with
      | [] => [[c]]
      | line :: others => (c :: line) :: others := by
  rw [Text.lines]
  · exact if_neg (by simp [hc])
  · rintro rest' rfl
    exact absurd hc (by decide)

theorem Settled.tail (h : Settled (c :: rest)) (hrest : rest ≠ []) : Settled rest := by
  refine ⟨hrest, ?_, fun d hd => h.breaks d (List.mem_cons_of_mem _ hd)⟩
  have hlast := h.last
  rwa [List.getLast?_cons_of_ne_nil hrest] at hlast

-- Putting each line of a text on a line of its own, further in, goes on further in after the end of
-- each of its lines.
theorem Settled.flatMap_lines (h : Settled text) :
    (Text.lines text).flatMap (newline 1 ++ ·) = newline 1 ++ indented 1 text := by
  induction text with
  | nil => exact absurd rfl h.ne_nil
  | cons c rest ih =>
    rw [indented_cons]
    by_cases hc : c = '\n'
    · -- an empty line, and more lines after it since the text does not end here
      subst hc
      have hrest : rest ≠ [] := by
        rintro rfl
        exact h.last rfl
      rw [lines_newline, List.flatMap_cons, ih (h.tail hrest), if_pos rfl, List.append_nil]
    · have hbreak : Text.isLineBreak c = false := by
        rw [Bool.eq_false_iff]
        exact fun hb => hc (h.breaks c List.mem_cons_self hb)
      rw [lines_cons hbreak, if_neg hc]
      by_cases hrest : rest = []
      · subst hrest
        rfl
      · have hlines := ih (h.tail hrest)
        split
        · next hnil =>
          rw [hnil] at hlines
          cases hlines
        · next line others hline =>
          rw [hline, List.flatMap_cons, List.append_assoc] at hlines
          rw [← List.append_cancel_left hlines, List.flatMap_cons]
          simp

end

theorem nest_eq {opening closing : List Char} {inner : List (List Char)}
    (h : ∀ text ∈ inner, Settled text) :
    nest opening inner closing =
      opening ++ (inner.flatMap (fun text => newline 1 ++ indented 1 text) ++
        (newline 0 ++ closing)) := by
  have hbody : (inner.flatMap fun text => (Text.lines text).map ([' ', ' '] ++ ·)).flatMap
      (['\n'] ++ ·) = inner.flatMap fun text => newline 1 ++ indented 1 text := by
    rw [List.flatMap_assoc]
    refine List.flatMap_congr fun text htext => ?_
    rw [List.flatMap_map, ← (h text htext).flatMap_lines]
    rfl
  rw [nest, List.cons_append, join_cons, List.flatMap_append, hbody]
  simp [newline]

theorem renderParts_eq (depth : Nat) (fs : List Sexp) :
    Sexp.renderParts depth fs = (fs.map (·.render depth)).flatMap (' ' :: ·) := by
  induction fs with
  | nil => rfl
  | cons f fs ih => simp [Sexp.renderParts, ih]

theorem renderLines_eq (depth : Nat) (fs : List Sexp) :
    Sexp.renderLines depth fs = (fs.map (·.render depth)).flatMap (newline depth ++ ·) := by
  induction fs with
  | nil => rfl
  | cons f fs ih => simp [Sexp.renderLines, ih]

theorem allProper_iff {fs : List Sexp} : Sexp.AllProper fs ↔ ∀ f ∈ fs, f.Proper := by
  induction fs with
  | nil => simp [Sexp.AllProper]
  | cons f fs ih => simp [Sexp.AllProper, ih]

section

variable {text : List Char}

theorem not_isLineBreak_of_isBare {c : Char} (h : isBare c = true) :
    Text.isLineBreak c = false := by
  rw [isBare, Bool.not_eq_true', Bool.or_eq_false_iff] at h
  exact h.1

theorem IsWord.oneLine (h : IsWord text) : ∀ c ∈ text, Text.isLineBreak c = false :=
  fun c hc => not_isLineBreak_of_isBare (h.2 c hc)

theorem oneLine_closing {closing : List Char} (h : closing ∈ closings) :
    ∀ c ∈ closing, Text.isLineBreak c = false := by
  have hall : ∀ closing ∈ closings, closing.any Text.isLineBreak = false := by decide
  simpa using hall closing h

theorem breaks_of_oneLine (h : ∀ c ∈ text, Text.isLineBreak c = false) :
    ∀ c ∈ text, Text.isLineBreak c = true → c = '\n' := by
  intro c hc hb
  rw [h c hc] at hb
  cases hb

theorem indented_of_oneLine (h : ∀ c ∈ text, Text.isLineBreak c = false) (depth : Nat) :
    indented depth text = text := by
  refine indented_of_ne fun c hc => ?_
  rintro rfl
  exact absurd (h _ hc) (by decide)

theorem breaks_newline (depth : Nat) :
    ∀ c ∈ newline depth, Text.isLineBreak c = true → c = '\n' := by
  intro c hc hb
  obtain rfl | hc := List.mem_cons.1 hc
  · rfl
  · rw [List.eq_of_mem_replicate hc] at hb
    exact absurd hb (by decide)

theorem breaks_indented {depth : Nat} (h : ∀ c ∈ text, Text.isLineBreak c = true → c = '\n') :
    ∀ c ∈ indented depth text, Text.isLineBreak c = true → c = '\n' := by
  intro c hc hb
  obtain hc | rfl := mem_indented hc
  · exact h c hc hb
  · exact absurd hb (by decide)

end

mutual

theorem Sexp.breaks {f : Sexp} (h : f.Proper) (depth : Nat) :
    ∀ c ∈ f.render depth, Text.isLineBreak c = true → c = '\n' := by
  cases f with
  | word text => exact breaks_of_oneLine (IsWord.oneLine h)
  | quoted text =>
    simp only [Sexp.render, List.forall_mem_cons, List.forall_mem_append]
    exact ⟨by decide, breaks_indented fun c hc => (h c hc).2,
      by decide, List.forall_mem_nil _⟩
  | list head parts =>
    simp only [Sexp.render, List.forall_mem_cons, List.forall_mem_append]
    exact ⟨by decide, breaks_of_oneLine h.1.oneLine, Sexp.breaksParts h.2.2 depth,
      by decide, List.forall_mem_nil _⟩
  | nest head heading inner closing =>
    obtain ⟨hhead, hheading, hinner, hclosing⟩ := h
    simp only [Sexp.render, List.forall_mem_cons, List.forall_mem_append]
    exact ⟨by decide, breaks_of_oneLine (isWord_of_mem_nestHeads hhead).oneLine,
      breaks_of_oneLine hheading.2, Sexp.breaksLines hinner (depth + 1), breaks_newline depth,
      breaks_of_oneLine (oneLine_closing hclosing)⟩

theorem Sexp.breaksParts {fs : List Sexp} (h : Sexp.AllProper fs) (depth : Nat) :
    ∀ c ∈ Sexp.renderParts depth fs, Text.isLineBreak c = true → c = '\n' := by
  cases fs with
  | nil => simp [Sexp.renderParts]
  | cons f fs =>
    simp only [Sexp.renderParts, List.forall_mem_cons, List.forall_mem_append]
    exact ⟨by decide, Sexp.breaks h.1 depth, Sexp.breaksParts h.2 depth⟩

theorem Sexp.breaksLines {fs : List Sexp} (h : Sexp.AllProper fs) (depth : Nat) :
    ∀ c ∈ Sexp.renderLines depth fs, Text.isLineBreak c = true → c = '\n' := by
  cases fs with
  | nil => simp [Sexp.renderLines]
  | cons f fs =>
    simp only [Sexp.renderLines, List.forall_mem_append]
    exact ⟨breaks_newline depth, Sexp.breaks h.1 depth, Sexp.breaksLines h.2 depth⟩

end

-- What a form ends with.
theorem Sexp.getLast?_render {f : Sexp} (h : f.Proper) (depth : Nat) :
    (f.render depth).getLast? ≠ some '\n' := by
  cases f with
  | word text =>
    intro hlast
    have hbare := h.2 _ (List.mem_of_getLast? hlast)
    exact absurd hbare (by decide)
  | quoted text => simp [Sexp.render, List.getLast?_cons, List.getLast?_append]
  | list head parts => simp [Sexp.render, List.getLast?_cons, List.getLast?_append]
  | nest head heading inner closing =>
    have hclosing := h.2.2.2
    simp only [closings, List.mem_cons, List.not_mem_nil, or_false] at hclosing
    obtain rfl | rfl := hclosing <;> simp [Sexp.render, List.getLast?_cons, List.getLast?_append]

theorem Sexp.settled {f : Sexp} (h : f.Proper) (depth : Nat) : Settled (f.render depth) := by
  obtain ⟨c, text, hc, -⟩ := Sexp.exists_render h depth
  exact ⟨by simp [hc], Sexp.getLast?_render h depth, Sexp.breaks h depth⟩

theorem indented_newline (depth : Nat) : indented 1 (newline depth) = newline (depth + 1) := by
  have hspaces : indented 1 (List.replicate (2 * depth) ' ') = List.replicate (2 * depth) ' ' :=
    indented_of_ne fun c hc => by simp [List.eq_of_mem_replicate hc]
  rw [newline, indented_cons, if_pos rfl, hspaces, newline, newline, Nat.mul_add, Nat.add_comm,
    List.replicate_add]
  rfl

theorem indented_indented (depth : Nat) (text : List Char) :
    indented 1 (indented depth text) = indented (depth + 1) text := by
  induction text with
  | nil => rfl
  | cons c text ih =>
    rw [indented_cons, indented_cons, indented_append, ih]
    split
    · rw [indented_newline]
    · next hc => rw [indented_of_ne (by simpa using hc)]

mutual

-- A form that stands further in is the form with each of its lines further in.
theorem Sexp.indented_render {f : Sexp} (h : f.Proper) (depth : Nat) :
    indented 1 (f.render depth) = f.render (depth + 1) := by
  cases f with
  | word text => exact indented_of_oneLine (IsWord.oneLine h) 1
  | quoted text =>
    rw [Sexp.render, indented_cons, indented_append, indented_indented]
    rfl
  | list head parts =>
    rw [Sexp.render, indented_cons, indented_append, indented_append,
      indented_of_oneLine h.1.oneLine, Sexp.indented_renderParts h.2.2]
    rfl
  | nest head heading inner closing =>
    obtain ⟨hhead, hheading, hinner, hclosing⟩ := h
    rw [Sexp.render, indented_cons, indented_append, indented_append, indented_append,
      indented_append, indented_of_oneLine (isWord_of_mem_nestHeads hhead).oneLine,
      indented_of_oneLine hheading.2, Sexp.indented_renderLines hinner, indented_newline,
      indented_of_oneLine (oneLine_closing hclosing)]
    rfl

theorem Sexp.indented_renderParts {fs : List Sexp} (h : Sexp.AllProper fs) (depth : Nat) :
    indented 1 (Sexp.renderParts depth fs) = Sexp.renderParts (depth + 1) fs := by
  cases fs with
  | nil => rfl
  | cons f fs =>
    rw [Sexp.renderParts, indented_cons, indented_append, Sexp.indented_render h.1,
      Sexp.indented_renderParts h.2]
    rfl

theorem Sexp.indented_renderLines {fs : List Sexp} (h : Sexp.AllProper fs) (depth : Nat) :
    indented 1 (Sexp.renderLines depth fs) = Sexp.renderLines (depth + 1) fs := by
  cases fs with
  | nil => rfl
  | cons f fs =>
    rw [Sexp.renderLines, indented_append, indented_append, indented_newline,
      Sexp.indented_render h.1, Sexp.indented_renderLines h.2]
    rfl

end

theorem form_render (head : String) (fs : List Sexp) :
    form (head.toList :: fs.map (·.render 0)) = (Sexp.list head fs).render 0 := by
  rw [form_cons, Sexp.render, renderParts_eq]

theorem nest_render {head : String} {heading closing : List Char} {fs : List Sexp}
    (h : Sexp.AllProper fs) :
    nest ('(' :: (head.toList ++ heading)) (fs.map (·.render 0)) closing =
      (Sexp.nest head heading fs closing).render 0 := by
  rw [allProper_iff] at h
  have hlines : (fs.map (·.render 0)).flatMap (fun text => newline 1 ++ indented 1 text) =
      Sexp.renderLines 1 fs := by
    rw [renderLines_eq, List.flatMap_map, List.flatMap_map]
    exact List.flatMap_congr fun f hf => by rw [Sexp.indented_render (h f hf)]
  rw [nest_eq (List.forall_mem_map.2 fun f hf => Sexp.settled (h f hf) 0), hlines, Sexp.render]
  simp

-- Forms one after the other are rendered to lines of their own.
theorem join_render {fs : List Sexp} (hne : fs ≠ []) :
    '\n' :: join ['\n'] (fs.map (·.render 0)) = Sexp.renderLines 0 fs := by
  obtain ⟨f, fs, rfl⟩ := List.exists_cons_of_ne_nil hne
  rw [List.map_cons, join_cons, Sexp.renderLines, renderLines_eq]
  rfl

theorem join_ne_nil {f : Sexp} (h : f.Proper) (fs : List Sexp) :
    join ['\n'] ((f :: fs).map (·.render 0)) ≠ [] := by
  obtain ⟨c, text, hc, -⟩ := Sexp.exists_render h 0
  rw [List.map_cons, join_cons, hc]
  simp

-- The text of several forms tells the forms.
theorem Sexp.join_unique {fs gs : List Sexp} (hf : Sexp.AllProper fs) (hg : Sexp.AllProper gs)
    (heq : join ['\n'] (fs.map (·.render 0)) = join ['\n'] (gs.map (·.render 0))) : fs = gs := by
  cases fs with
  | nil =>
    cases gs with
    | nil => rfl
    | cons g gs => exact absurd heq.symm (join_ne_nil hg.1 gs)
  | cons f fs =>
    cases gs with
    | nil => exact absurd heq (join_ne_nil hf.1 fs)
    | cons g gs =>
      have hlines := congrArg (List.cons '\n') heq
      rw [join_render (List.cons_ne_nil f fs), join_render (List.cons_ne_nil g gs)] at hlines
      have hdedents : Dedents 0 [] := fun c more _ h => by cases h
      exact (Sexp.uniqueLines hf hg stops_nil stops_nil hdedents hdedents
        (by rw [List.append_nil, List.append_nil, hlines])).1

end Lox.Syntax
