import Lox.Proofs.Source.Lines

namespace Lox.Source

-- Where a token stands in a text: it is one of the pieces of the text, with the given texts before
-- and after it. The token that marks the end stands behind all pieces.
structure Stands (source : String) (t : Token) (before after : List Char) : Prop where
  text : source.toList = before ++ t.lexeme.toList ++ after
  piece : t.kind ≠ .eof → ∃ ps p qs, pieces source.toList = ps ++ p :: qs ∧
    ps.flatMap Piece.text = before ∧ p.kind = .token t.kind ∧ p.text = t.lexeme.toList
  stop : t.kind = .eof → before = source.toList

theorem piece_of_mem_words {line : Int} {ps : List Piece} {t : Token} (h : t ∈ words line ps) :
    ∃ before p after, ps = before ++ p :: after ∧
      p.token? (line + feeds before + p.lineFeeds) = some t := by
  induction ps generalizing line with
  | nil => simp [words] at h
  | cons p ps ih =>
    rw [words] at h
    obtain h | h := List.mem_append.1 h
    · refine ⟨[], p, ps, rfl, ?_⟩
      rw [feeds_nil, Int.add_zero]
      exact Option.mem_toList.1 h
    · obtain ⟨before, q, after, rfl, ht⟩ := ih h
      refine ⟨p :: before, q, after, rfl, ?_⟩
      rwa [feeds_cons, ← Int.add_assoc]

theorem token?_eq_some {p : Piece} {line : Int} {t : Token} (h : p.token? line = some t) :
    p.kind = .token t.kind ∧ p.text = t.lexeme.toList ∧ t.line = line := by
  unfold Piece.token? at h
  split at h
  · next kind hkind =>
    obtain rfl := Option.some.inj h
    exact ⟨hkind, String.toList_ofList.symm, rfl⟩
  · cases h

-- Every token stands somewhere in its text, and its line counts the line feeds up to its end.
theorem stands_of_mem_scan {source : String} {t : Token} (h : t ∈ (scan source).tokens) :
    ∃ before after, Stands source t before after ∧
      t.line = 1 + (before ++ t.lexeme.toList).count '\n' := by
  rw [scan, tokens_collect] at h
  obtain h | h := List.mem_append.1 h
  · have heof : t.kind ≠ .eof := kind_of_mem_words h
    obtain ⟨ps, p, qs, hps, ht⟩ := piece_of_mem_words h
    obtain ⟨hkind, htext, hline⟩ := token?_eq_some ht
    refine ⟨ps.flatMap Piece.text, qs.flatMap Piece.text, ⟨?_, fun _ => ?_, ?_⟩, ?_⟩
    · rw [← flatten_pieces source.toList, hps, List.flatMap_append, List.flatMap_cons, htext,
        List.append_assoc]
    · exact ⟨ps, p, qs, hps, rfl, hkind, htext⟩
    · exact fun hk => absurd hk heof
    · rw [hline, feeds, Piece.lineFeeds, htext, List.count_append]
      omega
  · obtain rfl := List.mem_singleton.1 h
    refine ⟨source.toList, [], ⟨by simp, fun hk => absurd rfl hk, fun _ => rfl⟩, ?_⟩
    rw [feeds_pieces]
    simp

theorem exists_eof_mem_scan (source : String) : ∃ t ∈ (scan source).tokens, t.kind = .eof := by
  rw [scan, tokens_collect]
  exact ⟨_, List.mem_append_right _ List.mem_cons_self, rfl⟩

end Lox.Source
