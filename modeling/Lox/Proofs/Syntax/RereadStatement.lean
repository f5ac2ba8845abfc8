import Lox.Proofs.Grammar.Recognized
import Lox.Proofs.Syntax.Reread
import Lox.Proofs.Syntax.SoundStatement

namespace Lox.Syntax

theorem ReadsOptional.reread {s : Span (Option Expr)} (h : ReadsOptional s) (he : s.errors = [])
    (ht : ∀ t ∈ s.tokens, t.Textual) : ∀ e ∈ s.tree, Reads .assignment e.span := by
  cases h with
  | absent => simp
  | present hs => simpa using hs.reread he ht

theorem ReadsCondition.reread {s : Span Expr} (h : ReadsCondition s) (he : s.errors = [])
    (ht : ∀ t ∈ s.tokens, t.Textual) : Reads .assignment s.tree.span := by
  cases h with
  | mk _ hi _ => exact hi.reread he fun t hmem => ht t (by simp [hmem])

theorem ReadsBare.reread {s : Span Stmt} (h : ReadsBare s) (he : s.errors = [])
    (ht : ∀ t ∈ s.tokens, t.Textual) : ReadsBare s.tree.span := by
  cases h with
  | mk hv _ =>
    exact .mk (hv.reread he fun t hmem => ht t (by simp [hmem])) (Token.kind_fixed .semicolon)

theorem ReadsVariable.reread {s : Span Stmt} (h : ReadsVariable s) (he : s.errors = [])
    (ht : ∀ t ∈ s.tokens, t.Textual) : ReadsStmt .free .closed s.tree.span := by
  have hvar := Token.kind_fixed .varKw
  have hsemi := Token.kind_fixed .semicolon
  cases h with
  | plain hn _ => exact .declared hvar (.plain hn hsemi)
  | initialized hn _ hv _ =>
    have hvalue := hv.reread he fun t hmem => ht t (by simp [hmem])
    exact .declared hvar (.initialized hn (Token.kind_fixed .equal) hvalue hsemi)

theorem ReadsInitializer.reread {s : Span (Option Stmt)} (h : ReadsInitializer s)
    (he : s.errors = []) (ht : ∀ t ∈ s.tokens, t.Textual) :
    ∀ i ∈ s.tree, ReadsStmt .free .dangling i.span := by
  cases h with
  | absent _ => simp
  | declared _ hd => simpa using (hd.reread he fun t hmem => ht t (by simp [hmem])).dangling
  | bare hs => simpa using (ReadsStmt.free (.bare (hs.reread he ht))).dangling

theorem ReadsStmt.of_closed {slot : Slot} {s : Span Stmt} (h : ReadsStmt slot .closed s)
    (tail : Tail) : ReadsStmt slot tail s := by
  cases tail with
  | closed => exact h
  | dangling => exact .weaken h

theorem reads_condition {e : Expr} (h : Reads .assignment e.span) :
    ReadsCondition
      ⟨.fixed .leftParen :: (e.written ++ [.fixed .rightParen]), e, []⟩ :=
  .mk (Token.kind_fixed .leftParen) h (Token.kind_fixed .rightParen)

theorem reads_loop {condition : Expr} {body : Stmt} {tail : Tail}
    (hc : Reads .assignment condition.span) (hb : ReadsStmt .nested tail body.span) :
    ReadsStmt .nested tail (Stmt.loop condition body).span := by
  have hloop := ReadsStmt.loop (Token.kind_fixed .whileKw) (reads_condition hc) hb
  simpa [Stmt.span, Stmt.written] using hloop

theorem flatMap_tokens_span (ss : List Stmt) :
    (ss.map Stmt.span).flatMap Span.tokens = Stmt.allWritten ss := by
  rw [Stmt.allWritten_eq_flatMap, List.flatMap_map]
  rfl

theorem flatMap_errors_span (ss : List Stmt) : (ss.map Stmt.span).flatMap Span.errors = [] :=
  List.flatMap_eq_nil_iff.2 (List.forall_mem_map.2 fun _ _ => rfl)

theorem map_tree_span (ss : List Stmt) : (ss.map Stmt.span).map Span.tree = ss := by
  rw [List.map_map]
  exact List.map_id ss

theorem reads_block (body : List Stmt) (h : ∀ s ∈ body, ReadsStmt .free .dangling s.span) :
    ReadsStmt .nested .closed (Stmt.block body).span := by
  have hblock := ReadsStmt.block (Token.kind_fixed .leftBrace) (List.forall_mem_map.2 h)
    (Token.kind_fixed .rightBrace)
  rwa [flatMap_tokens_span, flatMap_errors_span, map_tree_span] at hblock

-- A `for` loop is read again as the blocks and the `while` loop that it stands for. An `else` after
-- it can only go into its body if that is not in a block.
theorem reads_forLoop {initializer : Option Stmt} {condition increment : Option Expr} {body : Stmt}
    {tail : Tail} (hi : ∀ s ∈ initializer, ReadsStmt .free .dangling s.span)
    (hc : ∀ e ∈ condition, Reads .assignment e.span)
    (hn : ∀ e ∈ increment, Reads .assignment e.span) (hb : ReadsStmt .nested tail body.span) :
    ReadsStmt .nested tail (forLoop initializer condition increment body).span := by
  have hcondition : Reads .assignment (condition.getD (.literal (.bool true))).span := by
    cases condition with
    | none =>
      have htrue : Reads .primary ⟨[.fixed .trueKw], .literal (.bool true), []⟩ := .literal rfl
      exact .plain htrue.disjunction_of_primary
    | some e => exact hc e rfl
  have hround : ReadsStmt .nested tail (forLoop none condition increment body).span := by
    cases increment with
    | none => exact reads_loop hcondition hb
    | some e =>
      have hbare : ReadsBare (Stmt.expression e).span :=
        .mk (hn e rfl) (Token.kind_fixed .semicolon)
      have hround := reads_block [body, .expression e]
        (by simpa using ⟨hb.free.dangling, (ReadsStmt.free (.bare hbare)).dangling⟩)
      exact reads_loop hcondition (hround.of_closed tail)
  cases initializer with
  | none => exact hround
  | some s =>
    have hall := reads_block [s, forLoop none condition increment body]
      (by simpa using ⟨hi s rfl, hround.free.dangling⟩)
    exact hall.of_closed tail

-- A statement that was read without errors is read again, in the same places, from the tokens
-- that its tree is written with.
theorem ReadsStmt.reread {slot : Slot} {tail : Tail} {s : Span Stmt} (h : ReadsStmt slot tail s)
    (he : s.errors = []) (ht : ∀ t ∈ s.tokens, t.Textual) : ReadsStmt slot tail s.tree.span := by
  have hbody : ∀ {body : List (Span Stmt)} {ts : List Token}, body.flatMap Span.errors = [] →
      (∀ t ∈ ts, t.Textual) → (∀ s ∈ body, ∀ t ∈ s.tokens, t ∈ ts) →
      (∀ s ∈ body, s.errors = [] → (∀ t ∈ s.tokens, t.Textual) →
        ReadsStmt .free .dangling s.tree.span) →
      ∀ s ∈ body.map Span.tree, ReadsStmt .free .dangling s.span := by
    intro body ts herrors hts hsub ih
    rw [List.flatMap_eq_nil_iff] at herrors
    rw [List.forall_mem_map]
    exact fun s hs => ih s hs (herrors s hs) fun t hmem => hts t (hsub s hs t hmem)
  induction h with
  | bare hs => exact .bare (hs.reread he ht)
  | print hk hv hs =>
    exact .print (Token.kind_fixed .printKw) (hv.reread he fun t hmem => ht t (by simp [hmem]))
      (Token.kind_fixed .semicolon)
  | @returnFrom keyword semicolon value hk hv hs =>
    have hvalue := hv.reread he fun t hmem => ht t (by simp [hmem])
    cases htree : value.tree with
    | none => exact .returnFrom hk .absent (Token.kind_fixed .semicolon)
    | some e => exact .returnFrom hk (.present (hvalue e htree)) (Token.kind_fixed .semicolon)
  | breakLoop hk hs => exact .breakLoop hk (Token.kind_fixed .semicolon)
  | block ho hb hc ih =>
    refine reads_block _ (hbody he ht (fun s hs t hmem => ?_) ih)
    simp only [List.mem_cons, List.mem_append, List.mem_flatMap]
    exact .inr (.inl ⟨s, hs, hmem⟩)
  | loop hk hc hb ih =>
    obtain ⟨hce, hbe⟩ := List.append_eq_nil_iff.1 he
    exact reads_loop (hc.reread hce fun t hmem => ht t (by simp [hmem]))
      (ih hbe fun t hmem => ht t (by simp [hmem]))
  | forLoop hk ho hi hc hs hn hp hb ih =>
    simp only [List.append_eq_nil_iff] at he
    obtain ⟨⟨⟨hie, hce⟩, hne⟩, hbe⟩ := he
    exact reads_forLoop (hi.reread hie fun t hmem => ht t (by simp [hmem]))
      (hc.reread hce fun t hmem => ht t (by simp [hmem]))
      (hn.reread hne fun t hmem => ht t (by simp [hmem]))
      (ih hbe fun t hmem => ht t (by simp [hmem]))
  | ifThen hk hc hy ih =>
    obtain ⟨hce, hye⟩ := List.append_eq_nil_iff.1 he
    have hall := ReadsStmt.ifThen (Token.kind_fixed .ifKw)
      (reads_condition (hc.reread hce fun t hmem => ht t (by simp [hmem])))
      (ih hye fun t hmem => ht t (by simp [hmem]))
    simpa [Stmt.span, Stmt.written] using hall
  | ifElse hk hc hy helse hn ih ih' =>
    simp only [List.append_eq_nil_iff] at he
    obtain ⟨⟨hce, hye⟩, hne⟩ := he
    have hall := ReadsStmt.ifElse (Token.kind_fixed .ifKw)
      (reads_condition (hc.reread hce fun t hmem => ht t (by simp [hmem])))
      (ih hye fun t hmem => ht t (by simp [hmem])) (Token.kind_fixed .elseKw)
      (ih' hne fun t hmem => ht t (by simp [hmem]))
    simpa [Stmt.span, Stmt.written] using hall
  | weaken _ ih => exact .weaken (ih he ht)
  | free _ ih => exact .free (ih he ht)
  | declared _ hd => exact hd.reread he fun t hmem => ht t (by simp [hmem])
  | @function keyword name opening closing brace last items parameters body hk hn ho hi hp hc hs hb
      hl ih =>
    obtain ⟨hpe, hbe⟩ := List.append_eq_nil_iff.1 he
    have hinner := hbody hbe ht (fun s hs t hmem => by
      simp only [List.mem_cons, List.mem_append, List.mem_flatMap]
      exact .inr (.inr (.inr (.inr (.inr (.inr (.inl ⟨s, hs, hmem⟩))))))) ih
    have hitems := hp.reread hpe (fun p hmem => by rw [(hi p hmem).2]; simp) ([·])
    have hnames : ∀ p ∈ items.map fun p : Span Token => (⟨[p.tree], p.tree, []⟩ : Span Token),
        p.tree.kind = .identifier ∧ p = ⟨[p.tree], p.tree, []⟩ :=
      List.forall_mem_map.2 fun p hmem => ⟨(hi p hmem).1, rfl⟩
    have hall := ReadsStmt.function (Token.kind_fixed .funKw) hn (Token.kind_fixed .leftParen)
      hnames hitems
      (Token.kind_fixed .rightParen) (Token.kind_fixed .leftBrace) (List.forall_mem_map.2 hinner)
      (Token.kind_fixed .rightBrace)
    rwa [flatMap_tokens_span, flatMap_errors_span, map_tree_span] at hall

end Lox.Syntax
