import Lox.Proofs.Syntax.DepthStatement
import Lox.Proofs.Syntax.Parsed

namespace Lox.Syntax

open Rule

-- What is read of a program, from the tokens before the one that marks its end.
def readAll (stop : Token) (tokens : List Token) : Program :=
  let reading := declarations (declaration tokens.length) false tokens.length stop tokens
  ⟨reading.value.getD [], reading.errors⟩

section

variable {stop : Token} {tokens rest : List Token} {errors : List SyntaxError} {depth : Nat}

theorem splitAtEnd_append (more : List Token) (htokens : ∀ t ∈ tokens, t.kind ≠ .eof)
    (hstop : stop.kind = .eof) : splitAtEnd (tokens ++ stop :: more) = (tokens, stop) := by
  have hall : ∀ t ∈ tokens, decide (t.kind ≠ .eof) = true := by simpa using htokens
  have htake : (tokens ++ stop :: more).takeWhile (·.kind ≠ .eof) = tokens :=
    unmarked_append more htokens hstop
  rw [splitAtEnd, htake, List.dropWhile_append_of_pos hall,
    List.dropWhile_cons_of_neg (by simp [hstop])]
  rfl

theorem parse_append (more : List Token) (htokens : ∀ t ∈ tokens, t.kind ≠ .eof)
    (hstop : stop.kind = .eof) : parse (tokens ++ stop :: more) = readAll stop tokens := by
  rw [parse, splitAtEnd_append more htokens hstop]
  rfl

theorem readAll_nil (stop : Token) : readAll stop [] = ⟨[], []⟩ := rfl

theorem declaration_eq (depth : Nat) :
    declaration depth = recovering (plainDeclaration (statement depth) (block depth) depth) := by
  rw [declaration, declarationWith_eq]

theorem exists_recovering (r : Rule Stmt) (stop : Token) (tokens : List Token) :
    ∃ value rest errors, recovering r stop tokens = ⟨some value, rest, errors⟩ := by
  rcases hrun : r stop tokens with ⟨_ | s, rest, errors⟩
  · exact ⟨none, recover rest, errors, run_recovering_none hrun⟩
  · exact ⟨some s, rest, errors, run_recovering hrun⟩

-- Broken declarations do not stop the reading of others.
theorem exists_declarations (r : Rule Stmt) (braceEnds : Bool) (rounds : Nat) (stop : Token)
    (tokens : List Token) : ∃ ss rest errors,
      declarations (recovering r) braceEnds rounds stop tokens = ⟨some ss, rest, errors⟩ := by
  induction rounds generalizing tokens with
  | zero => exact ⟨[], tokens, [], rfl⟩
  | succ rounds ih =>
    rw [declarations, run_bind (peek_eq_some.2 ⟨rfl, rfl, rfl⟩)]
    split
    · exact ⟨[], tokens, [], rfl⟩
    · obtain ⟨value, middle, first, hrun⟩ := exists_recovering r stop tokens
      obtain ⟨ss, rest, second, hss⟩ := ih middle
      rw [run_bind hrun, run_bind hss]
      exact ⟨value.toList ++ ss, rest, first ++ (second ++ []), rfl⟩

-- The depth and the number of rounds make no difference if there are enough of them.
theorem readAll_of {rounds : Nat} {ss : List Stmt} (hd : tokens.length ≤ depth)
    (hr : tokens.length ≤ rounds)
    (h : declarations (declaration depth) false rounds stop tokens = ⟨some ss, rest, errors⟩) :
    readAll stop tokens = ⟨ss, errors⟩ := by
  have hagrees := agrees_program (Nat.le_refl _) hd (Nat.le_refl _) hr stop tokens (Nat.le_refl _)
  rw [readAll, hagrees, h]
  rfl

theorem exists_readAll (stop : Token) {rounds : Nat} (hd : tokens.length ≤ depth)
    (hr : tokens.length ≤ rounds) :
    ∃ left, declarations (declaration depth) false rounds stop tokens =
      ⟨some (readAll stop tokens).statements, left, (readAll stop tokens).errors⟩ := by
  obtain ⟨ss, left, errors, h⟩ := exists_declarations
    (plainDeclaration (statement depth) (block depth) depth) false rounds stop tokens
  rw [← declaration_eq] at h
  rw [readAll_of hd hr h, h]
  exact ⟨left, rfl⟩

-- One declaration, broken or not, and what it leaves.
theorem readAll_step {value : Option Stmt} (hne : tokens ≠ []) (hd : tokens.length ≤ depth)
    (h : declaration depth stop tokens = ⟨some value, rest, errors⟩) :
    readAll stop tokens =
      ⟨value.toList ++ (readAll stop rest).statements, errors ++ (readAll stop rest).errors⟩ := by
  have hless := consumes_declaration depth stop tokens hne
  rw [h] at hless
  dsimp only at hless
  obtain ⟨rounds, hrounds⟩ : ∃ k, tokens.length = k + 1 := ⟨tokens.length - 1, by omega⟩
  obtain ⟨left, hothers⟩ := exists_readAll stop (by omega : rest.length ≤ depth)
    (by omega : rest.length ≤ rounds)
  obtain ⟨t, ts, rfl⟩ := List.exists_cons_of_ne_nil hne
  have hall : declarations (declaration depth) false (rounds + 1) stop (t :: ts) =
      ⟨some (value.toList ++ (readAll stop rest).statements), left,
        errors ++ (readAll stop rest).errors⟩ := by
    rw [declarations, run_bind (peek_eq_some.2 ⟨rfl, rfl, rfl⟩), if_neg (by simp), run_bind h,
      run_bind hothers]
    simp
  exact readAll_of hd (Nat.le_of_eq hrounds) hall

-- Declarations in front of others. An `else` must not follow them.
theorem readAll_append (stop : Token) {body : List (Span Stmt)}
    (hb : ∀ s ∈ body, ReadsStmt .free .dangling s) (hrest : Free [.elseKw] rest) :
    readAll stop (body.flatMap Span.tokens ++ rest) =
      ⟨body.map Span.tree ++ (readAll stop rest).statements,
        body.flatMap Span.errors ++ (readAll stop rest).errors⟩ := by
  have hle := length_le_flatMap hb
  let n := (body.flatMap Span.tokens ++ rest).length
  have hn : n = (body.flatMap Span.tokens).length + rest.length := List.length_append
  obtain ⟨hs, hblock⟩ := complete_statement_and_block n
  have hblock' : CompleteBlock (block n) (n - 1) :=
    fun stop body closing rest hlen => hblock stop body closing rest (by omega)
  have happend := declarations_append (complete_plainDeclaration hs hblock') false (n - body.length)
    stop hb hrest (Nat.le_refl n)
  obtain ⟨left, hothers⟩ := exists_readAll stop (by omega : rest.length ≤ n)
    (by omega : rest.length ≤ n - body.length)
  rw [← declaration_eq, Nat.add_sub_cancel' (by omega), hothers] at happend
  rw [readAll, happend]
  rfl

end

end Lox.Syntax
