import Lox.Proofs.Grammar.Recognized
import Lox.Proofs.Syntax.Declared
import Lox.Proofs.Syntax.Inside

namespace Lox.Syntax

open Rule

-- Tokens up to a semicolon, the only one among them, without braces and with no token inside that
-- only a new statement starts with. They start neither a `for` loop, which holds two more
-- semicolons, nor the second half of a statement before them.
structure Lone (tokens : List Token) : Prop where
  last : ∃ before semicolon, tokens = before ++ [semicolon] ∧ semicolon.kind = .semicolon ∧
    ∀ t ∈ before, t.kind ≠ .semicolon
  flat : ∀ t ∈ tokens, t.kind ∉ [.leftBrace, .rightBrace, .eof]
  inner : ∀ t ∈ tokens.tail, startsStatement t = false
  head : Free [.forKw, .elseKw] tokens

section

variable {stop : Token} {tokens rest : List Token} {errors : List SyntaxError} {depth : Nat}

theorem Lone.ended (h : Lone tokens) : Ended tokens := by
  obtain ⟨before, semicolon, hlast, hk, -⟩ := h.last
  refine ⟨⟨before, semicolon, hlast, hk⟩, fun t ht => ⟨fun hbrace => ?_, fun hfor => ?_⟩⟩
  · exact h.flat t ht (by simp [hbrace])
  · cases tokens with
    | nil => cases ht
    | cons first others =>
      obtain rfl | ht := List.mem_cons.1 ht
      · exact free_cons.1 h.head (by simp [hfor])
      · have hinner := h.inner t ht
        simp [startsStatement, hfor] at hinner

theorem recover_semicolon {before : List Token} {semicolon : Token}
    (hk : semicolon.kind = .semicolon) (hb : ∀ t ∈ before, t.kind ≠ .semicolon)
    (hs : ∀ t ∈ (before ++ [semicolon]).tail, startsStatement t = false) (more : List Token) :
    recover (before ++ semicolon :: more) = more := by
  induction before with
  | nil => simp [recover, hk]
  | cons t before ih =>
    obtain ⟨ht, hbefore⟩ := List.forall_mem_cons.1 hb
    have hnext : ∀ u ∈ (before ++ [semicolon]).tail, startsStatement u = false :=
      fun u hu => hs u (List.mem_of_mem_tail hu)
    have hhead : (before ++ semicolon :: more).head?.any startsStatement = false := by
      cases before with
      | nil => simpa using hs semicolon (by simp)
      | cons u us => simpa using hs u (by simp)
    rw [List.cons_append, recover, hhead, if_neg (by simp [ht])]
    exact ih hbefore hnext

-- After an error inside of them, reading goes on right behind their semicolon.
theorem Lone.recover (h : Lone tokens) (hs : rest <:+ tokens) (hne : rest ≠ [])
    (more : List Token) : recover (rest ++ more) = more := by
  have htail : ∀ t ∈ rest.tail, startsStatement t = false := by
    obtain ⟨passed, rfl⟩ := hs
    cases passed with
    | nil => exact h.inner
    | cons first passed =>
      exact fun t ht => h.inner t (List.mem_append_right passed (List.mem_of_mem_tail ht))
  obtain ⟨before, semicolon, rfl, hk, hbefore⟩ := h.last
  obtain rfl | ⟨before', rfl, hsuffix⟩ := List.suffix_concat_iff.1 hs
  · exact absurd rfl hne
  · rw [List.append_assoc]
    exact recover_semicolon hk (fun t ht => hbefore t (hsuffix.subset ht)) htail more

-- If no statement can be read from them, the error is among them whatever follows, and nothing of
-- that is passed over.
theorem Lone.readAll (h : Lone tokens) (hnone : (readAll stop tokens).statements = [])
    (stop' : Token) (more : List Token) :
    readAll stop' (tokens ++ more) = ⟨(readAll stop' more).statements,
      (readAll stop tokens).errors ++ (readAll stop' more).errors⟩ := by
  let depth := (tokens ++ more).length
  have hne := h.ended.ne_nil
  have hdepth : tokens.length ≤ depth := by simp [depth]
  let rule := plainDeclaration (statement depth) (block depth) depth
  obtain ⟨hstatement, hblock⟩ := stable_local.statement_and_block depth
  have hlocal : rule.Local := stable_local.plainDeclaration hstatement hblock depth
  have hinside : rule.Inside :=
    inside_plainDeclaration (inside_statement depth) (block depth) depth
  have hrest := hinside stop tokens h.ended
  have hsuffix := hlocal.shrinks stop tokens
  have hsame := @Local.same _ rule hlocal stop tokens
  rcases hrun : rule stop tokens with ⟨_ | s, rest, errors⟩ <;> rw [hrun] at hrest hsuffix hsame
  · have hpast := h.recover hsuffix (hrest rfl)
    have halone : declaration depth stop tokens = ⟨some none, [], errors⟩ := by
      rw [declaration_eq, run_recovering_none hrun, ← hpast [], List.append_nil]
    have hbefore : declaration depth stop' (tokens ++ more) = ⟨some none, more, errors⟩ := by
      rw [declaration_eq, run_recovering_none (hsame (hrest rfl) stop' more), hpast more]
    rw [readAll_step hne hdepth halone, readAll_nil,
      readAll_step (by simp [hne]) (Nat.le_refl _) hbefore]
    simp
  · have hgood : declaration depth stop tokens = ⟨some (some s), rest, errors⟩ := by
      rw [declaration_eq, run_recovering hrun]
    rw [readAll_step hne hdepth hgood] at hnone
    cases hnone

theorem exists_mark (h : ∃ t ∈ tokens, t.kind = .eof) : ∃ before stop more,
    tokens = before ++ stop :: more ∧ (∀ t ∈ before, t.kind ≠ .eof) ∧ stop.kind = .eof := by
  have hsome : (tokens.find? (·.kind = .eof)).isSome := by simpa using h
  obtain ⟨stop, hfind⟩ := Option.isSome_iff_exists.1 hsome
  obtain ⟨hstop, before, more, rfl, hbefore⟩ := List.find?_eq_some_iff_append.1 hfind
  exact ⟨before, stop, more, rfl, by simpa using hbefore, by simpa using hstop⟩

-- A broken statement takes nothing from what is in front of it or behind it: what is around it is
-- read as it would be alone, and the errors are those of the statement and those behind it.
theorem broken_statement_stays_apart {before broken after : List Token} {stop stop' : Token}
    (hbefore : ∀ t ∈ before, t.kind ≠ .eof) (hstop : stop.kind = .eof)
    (hclean : (parse (before ++ [stop])).errors = [])
    (hlone : Lone broken) (hstop' : stop'.kind = .eof)
    (hnone : (parse (broken ++ [stop'])).statements = [])
    (hafter : ∃ others mark, after = others ++ [mark] ∧ mark.kind = .eof) :
    parse (before ++ broken ++ after) =
      ⟨(parse (before ++ [stop])).statements ++ (parse after).statements,
        (parse (broken ++ [stop'])).errors ++ (parse after).errors⟩ := by
  have hflat : ∀ t ∈ broken, t.kind ≠ .eof :=
    fun t ht hk => hlone.flat t ht (by simp [hk])
  obtain ⟨body, hbody, hstatements⟩ := reads_of_clean hbefore hstop hclean
  obtain ⟨ahead, last, more, rfl, hahead, hlast⟩ : ∃ ahead last more, after = ahead ++ last :: more ∧
      (∀ t ∈ ahead, t.kind ≠ .eof) ∧ last.kind = .eof := by
    obtain ⟨others, mark, rfl, hmark⟩ := hafter
    exact exists_mark ⟨mark, by simp, hmark⟩
  have hthree : ∀ t ∈ before ++ (broken ++ ahead), t.kind ≠ .eof :=
    List.forall_mem_append.2 ⟨hbefore, List.forall_mem_append.2 ⟨hflat, hahead⟩⟩
  have helse : Free [.elseKw] (broken ++ ahead) := by
    obtain ⟨first, others, rfl⟩ := List.exists_cons_of_ne_nil hlone.ended.ne_nil
    have hhead := free_cons.1 hlone.head
    exact free_cons.2 fun hk => hhead (List.mem_cons_of_mem _ hk)
  have hread := readAll_append last hbody.declarations helse
  rw [← hbody.tokens, hbody.clean] at hread
  rw [parse_append [] hflat hstop'] at hnone ⊢
  calc parse (before ++ broken ++ (ahead ++ last :: more))
      = readAll last (before ++ (broken ++ ahead)) := by
        rw [← parse_append more hthree hlast]
        simp only [List.append_assoc]
    _ = ⟨body.map Span.tree ++ (readAll last ahead).statements,
          (readAll stop' broken).errors ++ (readAll last ahead).errors⟩ := by
        rw [hread, hlone.readAll hnone]
        rfl
    _ = _ := by rw [hstatements, parse_append more hahead hlast]

end

-- A word that has no value of its own.
def bare (kind : TokenKind) (lexeme : String) : Token := ⟨kind, lexeme, .nil, 1⟩

def printing (name : String) : List Token :=
  [bare .printKw "print", bare .identifier name, bare .semicolon ";"]

theorem parse_printing (name : String) : parse (printing name ++ [bare .eof ""]) =
    ⟨[.print (.variable (bare .identifier name))], []⟩ := by
  have hvalue : Reads .assignment
      ⟨[bare .identifier name], .variable (bare .identifier name), []⟩ :=
    .plain (Reads.name rfl).disjunction_of_primary
  have hprint : ReadsStmt .free .dangling
      ⟨printing name, .print (.variable (bare .identifier name)), []⟩ :=
    .weaken (.free (.print rfl hvalue rfl))
  have hread : ReadsProgram [⟨printing name, .print (.variable (bare .identifier name)), []⟩]
      (unmarked (printing name ++ [bare .eof ""])) := ⟨rfl, rfl, by simpa using hprint⟩
  exact parse_complete hread

theorem lone_print : Lone [bare .printKw "print", bare .semicolon ";"] where
  last := ⟨[bare .printKw "print"], bare .semicolon ";", rfl, rfl, by decide⟩
  flat := by decide
  inner := by decide
  head := free_cons.2 (by decide)

-- `print;` between `print x;` and `print y;`.
theorem broken_statement_stays_apart_print :
    let stop := bare .eof ""
    let broken := [bare .printKw "print", bare .semicolon ";"]
    (parse (printing "x" ++ [stop])).errors = [] ∧ Lone broken ∧
      (parse (broken ++ [stop])).statements = [] ∧
      parse (printing "x" ++ broken ++ (printing "y" ++ [stop])) =
        ⟨[.print (.variable (bare .identifier "x")), .print (.variable (bare .identifier "y"))],
          [⟨bare .semicolon ";", .noExpression⟩]⟩ := by
  intro stop broken
  have hbroken : parse (broken ++ [stop]) = ⟨[], [⟨bare .semicolon ";", .noExpression⟩]⟩ := rfl
  have hclean := congrArg Program.errors (parse_printing "x")
  have hnone := congrArg Program.statements hbroken
  have hapart := broken_statement_stays_apart (by decide) rfl hclean lone_print rfl hnone
    ⟨printing "y", stop, rfl, rfl⟩
  rw [parse_printing, parse_printing, hbroken] at hapart
  exact ⟨hclean, lone_print, hnone, hapart⟩

-- Nothing behind a mark is read, so a mark in front of a broken statement hides its error.
theorem hidden_behind_mark :
    ¬ ∀ (before broken after : List Token) (stop stop' : Token), stop.kind = .eof →
      (parse (before ++ [stop])).errors = [] → Lone broken → stop'.kind = .eof →
      (parse (broken ++ [stop'])).statements = [] →
      (∃ others mark, after = others ++ [mark] ∧ mark.kind = .eof) →
      parse (before ++ broken ++ after) =
        ⟨(parse (before ++ [stop])).statements ++ (parse after).statements,
          (parse (broken ++ [stop'])).errors ++ (parse after).errors⟩ := by
  intro h
  let stop := bare .eof ""
  have hparse := h [stop] [bare .printKw "print", bare .semicolon ";"] [stop] stop stop rfl rfl
    lone_print rfl rfl ⟨[], stop, rfl, rfl⟩
  exact absurd (congrArg (fun program => program.errors.length) hparse) (by decide)

end Lox.Syntax
