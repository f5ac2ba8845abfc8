import Lox.Text.LineBreak
import Mathlib.Data.List.Basic

namespace Lox.Syntax

-- What an outline consists of: words, texts in quotes, forms on one line, and forms that put each
-- of their parts on lines of its own between a heading and a closing line.
inductive Sexp where
  | word (text : List Char)
  | quoted (text : List Char)
  | list (head : String) (parts : List Sexp)
  | nest (head : String) (heading : List Char) (inner : List Sexp) (closing : List Char)

-- The characters that words consist of.
def isBare (c : Char) : Bool :=
  !(Text.isLineBreak c || [' ', '(', ')', '"', ','].contains c)

-- The end of a line, and the space in front of a line at a depth.
def newline (depth : Nat) : List Char :=
  '\n' :: List.replicate (2 * depth) ' '

-- A text that goes on at a depth after the end of each line.
def indented (depth : Nat) (text : List Char) : List Char :=
  text.flatMap fun c => if c = '\n' then newline depth else [c]

mutual

def Sexp.render (depth : Nat) : Sexp → List Char
  | .word text => text
  | .quoted text => '"' :: (indented depth text ++ ['"'])
  | .list head parts => '(' :: (head.toList ++ (Sexp.renderParts depth parts ++ [')']))
  | .nest head heading inner closing =>
    '(' :: (head.toList ++ (heading ++
      (Sexp.renderLines (depth + 1) inner ++ (newline depth ++ closing))))

def Sexp.renderParts (depth : Nat) : List Sexp → List Char
  | [] => []
  | f :: fs => ' ' :: (f.render depth ++ Sexp.renderParts depth fs)

def Sexp.renderLines (depth : Nat) : List Sexp → List Char
  | [] => []
  | f :: fs => newline depth ++ (f.render depth ++ Sexp.renderLines depth fs)

end

-- The forms over several lines.
def nestHeads : List String := ["block", "fun"]

def closings : List (List Char) := [")".toList, "\x7d)".toList]

def IsWord (text : List Char) : Prop :=
  text ≠ [] ∧ ∀ c ∈ text, isBare c = true

instance (text : List Char) : Decidable (IsWord text) :=
  decidable_of_iff (text ≠ [] ∧ text.all isBare = true) (by rw [IsWord, List.all_eq_true])

-- A text that can stand in quotes.
def Quotable (text : List Char) : Prop :=
  ∀ c ∈ text, c ≠ '"' ∧ (Text.isLineBreak c = true → c = '\n')

-- A heading goes on after its head with something that is no part of a word, and is on one line.
def IsHeading (text : List Char) : Prop :=
  (∀ c ∈ text.head?, isBare c = false) ∧ ∀ c ∈ text, Text.isLineBreak c = false

mutual

-- What can be told apart once it is rendered.
def Sexp.Proper : Sexp → Prop
  | .word text => IsWord text
  | .quoted text => Quotable text
  | .list head parts => IsWord head.toList ∧ head ∉ nestHeads ∧ Sexp.AllProper parts
  | .nest head heading inner closing =>
    head ∈ nestHeads ∧ IsHeading heading ∧ Sexp.AllProper inner ∧ closing ∈ closings

def Sexp.AllProper : List Sexp → Prop
  | [] => True
  | f :: fs => f.Proper ∧ AllProper fs

end

-- A text in front of which a word ends.
def Stops (text : List Char) : Prop :=
  ∀ c ∈ text.head?, isBare c = false

-- A text that does not start with a line at the given depth.
def Dedents (depth : Nat) (text : List Char) : Prop :=
  ∀ c more, c ≠ ' ' → text ≠ newline depth ++ c :: more

section

variable {text text' more more' : List Char}

-- Where a run of characters of a class ends is where the class ends.
theorem run_unique {p : Char → Bool} (h : ∀ c ∈ text, p c = true) (h' : ∀ c ∈ text', p c = true)
    (hmore : ∀ c ∈ more.head?, p c = false) (hmore' : ∀ c ∈ more'.head?, p c = false)
    (heq : text ++ more = text' ++ more') : text = text' ∧ more = more' := by
  induction text generalizing text' with
  | nil =>
    cases text' with
    | nil => exact ⟨rfl, heq⟩
    | cons c text' =>
      rw [List.nil_append] at heq
      have hstop := hmore c (by rw [heq]; rfl)
      rw [h' c List.mem_cons_self] at hstop
      cases hstop
  | cons c text ih =>
    cases text' with
    | nil =>
      rw [List.nil_append] at heq
      have hstop := hmore' c (by rw [← heq]; rfl)
      rw [h c List.mem_cons_self] at hstop
      cases hstop
    | cons c' text' =>
      obtain ⟨rfl, hrest⟩ := List.cons.inj heq
      obtain ⟨rfl, rfl⟩ := ih (List.forall_mem_cons.1 h).2 (List.forall_mem_cons.1 h').2 hrest
      exact ⟨rfl, rfl⟩

theorem isBare_space : isBare ' ' = false := by decide

theorem isBare_newline : isBare '\n' = false := by decide

theorem stops_nil : Stops [] := by
  intro c hc
  cases hc

theorem stops_cons {c : Char} (h : isBare c = false) : Stops (c :: text) := by
  intro d hd
  obtain rfl := Option.some.inj hd
  exact h

theorem stops_newline (depth : Nat) : Stops (newline depth ++ text) :=
  stops_cons isBare_newline

theorem stops_renderParts (depth : Nat) (fs : List Sexp) :
    Stops (Sexp.renderParts depth fs ++ ')' :: text) := by
  cases fs with
  | nil => exact stops_cons (by decide)
  | cons f fs => exact stops_cons isBare_space

theorem stops_renderLines (depth : Nat) (fs : List Sexp) (h : Stops text) :
    Stops (Sexp.renderLines depth fs ++ text) := by
  cases fs with
  | nil => exact h
  | cons f fs =>
    rw [Sexp.renderLines, List.append_assoc]
    exact stops_newline depth

-- The line after what is further in starts with fewer spaces.
theorem dedents_newline (depth : Nat) (h : text.head? ≠ some ' ') :
    Dedents (depth + 1) (newline depth ++ text) := by
  intro c more _ heq
  have hspaces : newline (depth + 1) = newline depth ++ [' ', ' '] := by
    rw [newline, newline, Nat.mul_add, List.replicate_add]
    rfl
  rw [hspaces, List.append_assoc] at heq
  rw [List.append_cancel_left heq] at h
  exact h rfl

theorem indented_cons (depth : Nat) (c : Char) (text : List Char) :
    indented depth (c :: text) =
      (if c = '\n' then newline depth else [c]) ++ indented depth text := rfl

@[simp] theorem indented_append (depth : Nat) (text more : List Char) :
    indented depth (text ++ more) = indented depth text ++ indented depth more :=
  List.flatMap_append

@[simp] theorem indented_zero (text : List Char) : indented 0 text = text := by
  induction text with
  | nil => rfl
  | cons c text ih =>
    rw [indented_cons, ih]
    split
    · next hc => rw [hc]; rfl
    · rfl

theorem indented_of_ne {depth : Nat} (h : ∀ c ∈ text, c ≠ '\n') : indented depth text = text := by
  induction text with
  | nil => rfl
  | cons c text ih =>
    obtain ⟨hc, htext⟩ := List.forall_mem_cons.1 h
    rw [indented_cons, if_neg hc, ih htext]
    rfl

theorem mem_indented {depth : Nat} {c : Char} (h : c ∈ indented depth text) :
    c ∈ text ∨ c = ' ' := by
  obtain ⟨d, hd, hc⟩ := List.mem_flatMap.1 h
  split at hc
  · next hline =>
    subst hline
    obtain rfl | hspace := List.mem_cons.1 hc
    · exact .inl hd
    · exact .inr (List.eq_of_mem_replicate hspace)
  · obtain rfl := List.mem_singleton.1 hc
    exact .inl hd

theorem indented_injective (depth : Nat) : Function.Injective (indented depth) := by
  intro text text' heq
  induction text generalizing text' with
  | nil =>
    cases text' with
    | nil => rfl
    | cons c text' =>
      rw [indented_cons] at heq
      split at heq <;> cases heq
  | cons c text ih =>
    cases text' with
    | nil =>
      rw [indented_cons] at heq
      split at heq <;> cases heq
    | cons c' text' =>
      rw [indented_cons, indented_cons] at heq
      by_cases hc : c = '\n'
      · by_cases hc' : c' = '\n'
        · rw [if_pos hc, if_pos hc'] at heq
          rw [hc, hc', ih (List.append_cancel_left heq)]
        · rw [if_pos hc, if_neg hc'] at heq
          exact absurd (List.cons.inj heq).1.symm hc'
      · by_cases hc' : c' = '\n'
        · rw [if_neg hc, if_pos hc'] at heq
          exact absurd (List.cons.inj heq).1 hc
        · rw [if_neg hc, if_neg hc'] at heq
          obtain ⟨rfl, hrest⟩ := List.cons.inj heq
          rw [ih hrest]

-- A word does not start where one ends.
theorem IsWord.append_ne (h : IsWord text) (hmore : Stops more') : text ++ more ≠ more' := by
  intro heq
  obtain ⟨c, rest, rfl⟩ := List.exists_cons_of_ne_nil h.1
  have hbare := h.2 c List.mem_cons_self
  rw [hmore c (by rw [← heq]; rfl)] at hbare
  cases hbare

theorem IsWord.unique (h : IsWord text) (h' : IsWord text') (hmore : Stops more)
    (hmore' : Stops more') (heq : text ++ more = text' ++ more') : text = text' ∧ more = more' :=
  run_unique h.2 h'.2 hmore hmore' heq

theorem head_unique {head head' : String} (h : IsWord head.toList) (h' : IsWord head'.toList)
    (hmore : Stops more) (hmore' : Stops more')
    (heq : head.toList ++ more = head'.toList ++ more') : head = head' ∧ more = more' := by
  obtain ⟨htext, hrest⟩ := h.unique h' hmore hmore' heq
  exact ⟨String.toList_inj.1 htext, hrest⟩

theorem isWord_of_mem_nestHeads {head : String} (h : head ∈ nestHeads) : IsWord head.toList := by
  simp only [nestHeads, List.mem_cons, List.not_mem_nil, or_false] at h
  obtain rfl | rfl := h <;> decide

theorem stops_heading {depth : Nat} {inner : List Sexp} {closing : List Char}
    (h : IsHeading text) :
    Stops (text ++ (Sexp.renderLines (depth + 1) inner ++ (newline depth ++ closing))) := by
  cases text with
  | nil => exact stops_renderLines _ inner (stops_newline depth)
  | cons c text => exact stops_cons (h.1 c rfl)

-- Texts in quotes end at the quote after them.
theorem quoted_unique {depth : Nat} (h : Quotable text) (h' : Quotable text')
    (heq : indented depth text ++ '"' :: more = indented depth text' ++ '"' :: more') :
    text = text' ∧ more = more' := by
  have hquote : ∀ {text : List Char}, Quotable text → ∀ c ∈ indented depth text,
      decide (c ≠ '"') = true := by
    intro text htext c hc
    rw [decide_eq_true_iff]
    obtain hc | rfl := mem_indented hc
    · exact (htext c hc).1
    · decide
  have hend : ∀ {more : List Char}, ∀ c ∈ ('"' :: more).head?, decide (c ≠ '"') = false := by
    intro more c hc
    obtain rfl := Option.some.inj hc
    rfl
  obtain ⟨htext, hmore⟩ := run_unique (hquote h) (hquote h') hend hend heq
  exact ⟨indented_injective depth htext, (List.cons.inj hmore).2⟩

theorem heading_unique (h : IsHeading text) (h' : IsHeading text')
    (hmore : more.head? = some '\n') (hmore' : more'.head? = some '\n')
    (heq : text ++ more = text' ++ more') : text = text' ∧ more = more' := by
  have hline : ∀ {text : List Char}, IsHeading text → ∀ c ∈ text, decide (c ≠ '\n') = true := by
    intro text htext c hc
    rw [decide_eq_true_iff]
    rintro rfl
    exact absurd (htext.2 _ hc) (by decide)
  have hend : ∀ {more : List Char}, more.head? = some '\n' →
      ∀ c ∈ more.head?, decide (c ≠ '\n') = false := by
    intro more hmore c hc
    obtain rfl := Option.some.inj (hmore.symm.trans hc)
    rfl
  exact run_unique (hline h) (hline h') (hend hmore) (hend hmore') heq

theorem closing_unique {closing closing' : List Char} (h : closing ∈ closings)
    (h' : closing' ∈ closings) (heq : closing ++ more = closing' ++ more') :
    closing = closing' ∧ more = more' := by
  simp only [closings, List.mem_cons, List.not_mem_nil, or_false] at h h'
  obtain rfl | rfl := h <;> obtain rfl | rfl := h' <;> simp_all

theorem head_closing {closing : List Char} (h : closing ∈ closings) :
    (closing ++ more).head? ≠ some ' ' := by
  simp only [closings, List.mem_cons, List.not_mem_nil, or_false] at h
  obtain rfl | rfl := h <;> simp

theorem head_renderLines (depth : Nat) (fs : List Sexp) (h : more.head? = some '\n') :
    (Sexp.renderLines depth fs ++ more).head? = some '\n' := by
  cases fs with
  | nil => exact h
  | cons f fs => rfl

-- What a form starts with.
theorem Sexp.exists_render {f : Sexp} (h : f.Proper) (depth : Nat) :
    ∃ c text, f.render depth = c :: text ∧ c ≠ ' ' := by
  cases f with
  | word text =>
    obtain ⟨c, rest, rfl⟩ := List.exists_cons_of_ne_nil h.1
    refine ⟨c, rest, rfl, ?_⟩
    rintro rfl
    exact absurd (h.2 _ List.mem_cons_self) (by decide)
  | quoted text => exact ⟨_, _, rfl, by decide⟩
  | list head parts => exact ⟨_, _, rfl, by decide⟩
  | nest head heading inner closing => exact ⟨_, _, rfl, by decide⟩

end

mutual

-- A form ends before anything that no word goes on with, and what it is rendered to tells the form.
theorem Sexp.unique {f g : Sexp} {depth : Nat} {more more' : List Char} (hf : f.Proper)
    (hg : g.Proper) (hmore : Stops more) (hmore' : Stops more')
    (heq : f.render depth ++ more = g.render depth ++ more') : f = g ∧ more = more' := by
  cases f with
  | word text =>
    cases g with
    | word text' =>
      obtain ⟨rfl, rfl⟩ := IsWord.unique hf hg hmore hmore' heq
      exact ⟨rfl, rfl⟩
    | quoted text' => exact absurd heq (IsWord.append_ne hf (stops_cons (by decide)))
    | list head parts => exact absurd heq (IsWord.append_ne hf (stops_cons (by decide)))
    | nest head heading inner closing =>
      exact absurd heq (IsWord.append_ne hf (stops_cons (by decide)))
  | quoted text =>
    cases g with
    | word text' => exact absurd heq.symm (IsWord.append_ne hg (stops_cons (by decide)))
    | quoted text' =>
      simp only [Sexp.render, List.cons_append, List.append_assoc, List.cons.injEq, true_and,
        List.nil_append] at heq
      obtain ⟨rfl, rfl⟩ := quoted_unique hf hg heq
      exact ⟨rfl, rfl⟩
    | list head parts => exact absurd (List.cons.inj heq).1 (by decide)
    | nest head heading inner closing => exact absurd (List.cons.inj heq).1 (by decide)
  | list head parts =>
    cases g with
    | word text' => exact absurd heq.symm (IsWord.append_ne hg (stops_cons (by decide)))
    | quoted text' => exact absurd (List.cons.inj heq).1 (by decide)
    | list head' parts' =>
      simp only [Sexp.render, List.cons_append, List.append_assoc, List.cons.injEq, true_and,
        List.nil_append] at heq
      obtain ⟨rfl, hparts⟩ :=
        head_unique hf.1 hg.1 (stops_renderParts _ _) (stops_renderParts _ _) heq
      obtain ⟨rfl, hrest⟩ := Sexp.uniqueParts hf.2.2 hg.2.2 hparts
      exact ⟨rfl, hrest⟩
    | nest head' heading inner closing =>
      -- no form on one line has a head of those over several lines
      simp only [Sexp.render, List.cons_append, List.append_assoc, List.cons.injEq, true_and,
        List.nil_append] at heq
      obtain ⟨rfl, -⟩ := head_unique hf.1 (isWord_of_mem_nestHeads hg.1) (stops_renderParts _ _)
        (stops_heading hg.2.1) heq
      exact absurd hg.1 hf.2.1
  | nest head heading inner closing =>
    cases g with
    | word text' => exact absurd heq.symm (IsWord.append_ne hg (stops_cons (by decide)))
    | quoted text' => exact absurd (List.cons.inj heq).1 (by decide)
    | list head' parts' =>
      simp only [Sexp.render, List.cons_append, List.append_assoc, List.cons.injEq, true_and,
        List.nil_append] at heq
      obtain ⟨rfl, -⟩ := head_unique (isWord_of_mem_nestHeads hf.1) hg.1 (stops_heading hf.2.1)
        (stops_renderParts _ _) heq
      exact absurd hf.1 hg.2.1
    | nest head' heading' inner' closing' =>
      obtain ⟨hhead, hheading, hinner, hclosing⟩ := hf
      obtain ⟨hhead', hheading', hinner', hclosing'⟩ := hg
      simp only [Sexp.render, List.cons_append, List.append_assoc, List.cons.injEq, true_and] at heq
      obtain ⟨rfl, hafterHead⟩ := head_unique (isWord_of_mem_nestHeads hhead)
        (isWord_of_mem_nestHeads hhead') (stops_heading hheading) (stops_heading hheading') heq
      obtain ⟨rfl, hlines⟩ := heading_unique hheading hheading' (head_renderLines _ _ rfl)
        (head_renderLines _ _ rfl) hafterHead
      obtain ⟨rfl, hlast⟩ := Sexp.uniqueLines hinner hinner' (stops_newline depth)
        (stops_newline depth) (dedents_newline depth (head_closing hclosing))
        (dedents_newline depth (head_closing hclosing')) hlines
      obtain ⟨rfl, rfl⟩ := closing_unique hclosing hclosing' (List.append_cancel_left hlast)
      exact ⟨rfl, rfl⟩

theorem Sexp.uniqueParts {fs gs : List Sexp} {depth : Nat} {more more' : List Char}
    (hf : Sexp.AllProper fs) (hg : Sexp.AllProper gs)
    (heq : Sexp.renderParts depth fs ++ ')' :: more = Sexp.renderParts depth gs ++ ')' :: more') :
    fs = gs ∧ more = more' := by
  cases fs with
  | nil =>
    cases gs with
    | nil => exact ⟨rfl, (List.cons.inj heq).2⟩
    | cons g gs => exact absurd (List.cons.inj heq).1 (by decide)
  | cons f fs =>
    cases gs with
    | nil => exact absurd (List.cons.inj heq).1 (by decide)
    | cons g gs =>
      simp only [Sexp.renderParts, List.cons_append, List.append_assoc, List.cons.injEq,
        true_and] at heq
      obtain ⟨rfl, hparts⟩ :=
        Sexp.unique hf.1 hg.1 (stops_renderParts _ _) (stops_renderParts _ _) heq
      obtain ⟨rfl, hrest⟩ := Sexp.uniqueParts hf.2 hg.2 hparts
      exact ⟨rfl, hrest⟩

theorem Sexp.uniqueLines {fs gs : List Sexp} {depth : Nat} {more more' : List Char}
    (hf : Sexp.AllProper fs) (hg : Sexp.AllProper gs) (hmore : Stops more) (hmore' : Stops more')
    (hdedents : Dedents depth more) (hdedents' : Dedents depth more')
    (heq : Sexp.renderLines depth fs ++ more = Sexp.renderLines depth gs ++ more') :
    fs = gs ∧ more = more' := by
  cases fs with
  | nil =>
    cases gs with
    | nil => exact ⟨rfl, heq⟩
    | cons g gs =>
      -- another line would start at this depth, and what follows does not
      obtain ⟨c, text, hc, hspace⟩ := Sexp.exists_render hg.1 depth
      simp only [Sexp.renderLines, hc, List.nil_append, List.append_assoc, List.cons_append] at heq
      exact absurd heq (hdedents c _ hspace)
  | cons f fs =>
    cases gs with
    | nil =>
      obtain ⟨c, text, hc, hspace⟩ := Sexp.exists_render hf.1 depth
      simp only [Sexp.renderLines, hc, List.nil_append, List.append_assoc, List.cons_append] at heq
      exact absurd heq.symm (hdedents' c _ hspace)
    | cons g gs =>
      simp only [Sexp.renderLines, List.append_assoc] at heq
      obtain ⟨rfl, hlines⟩ := Sexp.unique hf.1 hg.1 (stops_renderLines _ _ hmore)
        (stops_renderLines _ _ hmore') (List.append_cancel_left heq)
      obtain ⟨rfl, hrest⟩ := Sexp.uniqueLines hf.2 hg.2 hmore hmore' hdedents hdedents' hlines
      exact ⟨rfl, hrest⟩

end

end Lox.Syntax
