import Lox.Proofs.Number.Bits
import Lox.Proofs.Number.Fewest
import Lox.Proofs.Source.Counter

namespace Lox.Source

open Number

-- A number in plain notation: its digits before the point and those behind it. There is no point
-- without a digit behind it, and the last one is not zero.
inductive Plain : (text whole fraction : List Char) → Prop
  | whole {digits : List Char} : Digits digits → Plain digits digits []
  | decimal {whole fraction : List Char} :
    Digits whole → Digits fraction → fraction.getLast? ≠ some '0' →
    Plain (whole ++ '.' :: fraction) whole fraction

-- What the digits are worth.
def worth (whole fraction : List Char) : ℚ :=
  ofDigits (whole ++ fraction) / 10 ^ fraction.length

theorem digits_numeral (n : Nat) : Digits (numeral n) :=
  ⟨numeral_ne_nil n, fun _ => isDigit_of_mem_numeral⟩

theorem digits_padded {width : Nat} (hwidth : width ≠ 0) (n : Nat) : Digits (padded width n) := by
  refine ⟨fun h => hwidth ?_, fun _ => isDigit_of_mem_padded⟩
  rw [← length_padded width n, h, List.length_nil]

theorem getLast?_padded {width : Nat} (hwidth : width ≠ 0) (n : Nat) :
    (padded width n).getLast? = some (digit n) := by
  obtain ⟨width, rfl⟩ := Nat.exists_eq_succ_of_ne_zero hwidth
  rw [padded, List.getLast?_concat]

theorem digit_ne_zero {n : Nat} (h : n % 10 ≠ 0) : digit n ≠ '0' := by
  intro hzero
  have hcode := toNat_digit n
  rw [hzero] at hcode
  omega

section

variable {b : Nat} {d : Decimal}

-- A zero at the end would leave a coarser decimal.
theorem last_ne_zero (hb : 0 < b) (hfinite : b < infinity) (h : Answers b d) :
    d.coefficient % 10 ≠ 0 := by
  intro hzero
  have hreads := h.readsBack
  have hcoarse := h.coarsest (d.coefficient / 10)
  have hten : d.coefficient / 10 * 10 = d.coefficient := by omega
  rw [readsBack_iff hb hfinite, value_succ, hten] at hcoarse
  exact hcoarse ((readsBack_iff hb hfinite).1 hreads)

theorem worth_numeral (c : Nat) {place : Nat} (h : 324 ≤ place) :
    worth (numeral (c * Nat.pow 10 (place - 324))) [] = Decimal.value ⟨c, place⟩ := by
  have hplace : ((place - 324 : Nat) : ℤ) = place - 324 := by omega
  rw [worth, List.append_nil, ofDigits_numeral, List.length_nil, pow_zero, div_one, Decimal.value,
    ← hplace, zpow_natCast, Nat.pow_eq, Nat.cast_mul, Nat.cast_pow, Nat.cast_ofNat]

theorem worth_point (c : Nat) {place : Nat} (h : place < 324) :
    worth (numeral (c / Nat.pow 10 (324 - place))) (padded (324 - place) c) =
      Decimal.value ⟨c, place⟩ := by
  have hplace : (place - 324 : ℤ) = -((324 - place : Nat) : ℤ) := by omega
  rw [worth, ofDigits_append, length_padded, ofDigits_numeral, ofDigits_padded, Nat.div_add_mod',
    Decimal.value, hplace, zpow_neg, zpow_natCast, div_eq_mul_inv]

theorem plain_answer (hb : 0 < b) (hfinite : b < infinity) (h : Answers b d) :
    ∃ whole fraction, Plain d.plain whole fraction ∧ worth whole fraction = d.value := by
  rw [Decimal.plain]
  split
  · next hplace => exact ⟨_, [], .whole (digits_numeral _), worth_numeral d.coefficient hplace⟩
  · next hplace =>
    have hwidth : 324 - d.place ≠ 0 := by omega
    refine ⟨_, _, .decimal (digits_numeral _) (digits_padded hwidth _) ?_,
      worth_point d.coefficient (by omega)⟩
    rw [getLast?_padded hwidth, ne_eq, Option.some_inj]
    exact digit_ne_zero (last_ne_zero hb hfinite h)

end

-- A finite double is shown by its shortest decimal.
theorem plain_digitsOf {b : Nat} (hfinite : b < infinity) :
    ∃ whole fraction, Plain (digitsOf b) whole fraction ∧
      ∃ c e, IsShortest b (worth whole fraction) c e := by
  rw [digitsOf]
  split
  · next hzero =>
    subst hzero
    have hvalue : ofDigits ['0'] = 0 := rfl
    have hworth : worth ['0'] [] = 0 := by
      rw [worth, List.append_nil, hvalue, Nat.cast_zero, zero_div]
    have hdigits : Digits ['0'] := ⟨by simp, List.forall_mem_singleton.2 (by decide)⟩
    refine ⟨['0'], [], .whole hdigits, 0, 0, ?_⟩
    rw [hworth]
    exact isShortest_zero
  · next hb =>
    have hpos : 0 < b := Nat.pos_of_ne_zero hb
    obtain ⟨whole, fraction, hplain, hworth⟩ :=
      plain_answer hpos hfinite (answers_shortest hpos hfinite)
    have hshortest := isShortest_shortest hpos hfinite
    rw [← hworth] at hshortest
    exact ⟨whole, fraction, hplain, _, _, hshortest⟩

-- What ends a number: the end of the text, or anything but a digit and a point.
def Stops (rest : List Char) : Prop :=
  ∀ c ∈ rest.head?, isDigit c = false ∧ c ≠ '.'

section

variable {text whole fraction rest : List Char}

theorem run_append {digits : List Char} (h : ∀ c ∈ digits, isDigit c = true) (hrest : Stops rest) :
    (digits ++ rest).takeWhile isDigit = digits ∧ (digits ++ rest).dropWhile isDigit = rest := by
  cases rest with
  | nil =>
    rw [List.append_nil]
    exact ⟨List.takeWhile_eq_self_iff.2 h, List.dropWhile_eq_nil_iff.2 h⟩
  | cons c others =>
    obtain ⟨hc, -⟩ := hrest c rfl
    exact ⟨takeWhile_of_stop h hc others, dropWhile_of_stop h hc others⟩

theorem cutNumber_whole {c : Char} {digits : List Char} (h : ∀ d ∈ digits, isDigit d = true)
    (hrest : Stops rest) :
    cutNumber c (digits ++ rest) = (⟨.token .number, c :: digits⟩, rest) := by
  obtain ⟨htake, hdrop⟩ := run_append h hrest
  rw [cutNumber, htake, hdrop]
  split
  · exact absurd rfl (hrest '.' rfl).2
  · rfl

theorem cutNumber_decimal {c d : Char} {whole fraction : List Char}
    (hwhole : ∀ d ∈ whole, isDigit d = true) (hd : isDigit d = true)
    (hfraction : ∀ d ∈ fraction, isDigit d = true) (hrest : Stops rest) :
    cutNumber c (whole ++ '.' :: d :: (fraction ++ rest)) =
      (⟨.token .number, c :: (whole ++ '.' :: d :: fraction)⟩, rest) := by
  have hpoint : isDigit '.' = false := by decide
  obtain ⟨htake, hdrop⟩ := run_append hfraction hrest
  rw [cutNumber, takeWhile_of_stop hwhole hpoint, dropWhile_of_stop hwhole hpoint]
  simp only [hd, htake, hdrop, if_true, List.cons_append]

-- A number in plain notation is cut off as a whole.
theorem Plain.pieces_append (h : Plain text whole fraction) (hrest : Stops rest) :
    pieces (text ++ rest) = ⟨.token .number, text⟩ :: pieces rest := by
  cases h with
  | whole hdigits =>
    obtain ⟨c, digits, rfl⟩ := List.exists_cons_of_ne_nil hdigits.1
    obtain ⟨hc, hdigits⟩ := List.forall_mem_cons.1 hdigits.2
    rw [List.cons_append, pieces, cut_digit hc, cutNumber_whole hdigits hrest]
  | decimal hwhole hfraction _ =>
    obtain ⟨c, digits, rfl⟩ := List.exists_cons_of_ne_nil hwhole.1
    obtain ⟨d, others, rfl⟩ := List.exists_cons_of_ne_nil hfraction.1
    obtain ⟨hc, hwhole⟩ := List.forall_mem_cons.1 hwhole.2
    obtain ⟨hd, hfraction⟩ := List.forall_mem_cons.1 hfraction.2
    rw [List.append_assoc, List.cons_append, List.cons_append, pieces, cut_digit hc, List.cons_append,
      List.cons_append, cutNumber_decimal hwhole hd hfraction hrest]

theorem Plain.read_eq (h : Plain text whole fraction) {b : Nat}
    (hb : RoundsTo (worth whole fraction) b) :
    Number.read text = ofPattern b := by
  have hread : Number.read text =
      ofPattern (nearest (ofDigits (whole ++ fraction)) (Nat.pow 10 fraction.length)) := by
    rw [Number.read]
    cases h with
    | whole hdigits =>
      rw [List.takeWhile_eq_self_iff.2 hdigits.2, List.dropWhile_eq_nil_iff.2 hdigits.2]
      rfl
    | decimal hwhole _ _ =>
      have hpoint : isDigit '.' = false := by decide
      rw [takeWhile_of_stop hwhole.2 hpoint, dropWhile_of_stop hwhole.2 hpoint]
      rfl
  have hscale : 0 < Nat.pow 10 fraction.length := Nat.pow_pos (by omega)
  have hnearest := roundsTo_nearest (ofDigits (whole ++ fraction)) hscale
  rw [Nat.pow_eq, Nat.cast_pow, Nat.cast_ofNat] at hnearest
  rw [hread, hb.unique hnearest, Nat.pow_eq]

theorem Plain.notMem_feed (h : Plain text whole fraction) : '\n' ∉ text := by
  cases h with
  | whole hdigits => exact hdigits.notMem_feed
  | decimal hwhole hfraction _ => simp [hwhole.notMem_feed, hfraction.notMem_feed]

-- A token within a line comes before the others.
theorem collect_token {text : List Char} (h : '\n' ∉ text) (kind : TokenKind) (line : Int)
    (ps : List Piece) :
    collect line (⟨.token kind, text⟩ :: ps) =
      ⟨⟨kind, String.ofList text, literalOf kind text, line⟩ :: (collect line ps).tokens,
        (collect line ps).errors⟩ := by
  have hline : line + Piece.lineFeeds ⟨.token kind, text⟩ = line := by
    rw [Piece.lineFeeds, List.count_eq_zero.2 h]
    omega
  rw [collect, hline]
  rfl

-- The display of a number that is not negative is one token.
theorem Plain.scan_eq (h : Plain text whole fraction) :
    scan (String.ofList text) =
      ⟨[⟨.number, String.ofList text, .number (Number.read text), 1⟩, ⟨.eof, "", .nil, 1⟩], []⟩ := by
  have hpieces := h.pieces_append (fun c hc => nomatch hc : Stops [])
  rw [List.append_nil, pieces] at hpieces
  rw [scan, String.toList_ofList, hpieces, collect_token h.notMem_feed]
  rfl

theorem collect_blank (line : Int) (ps : List Piece) :
    collect line (⟨.blank, [' ']⟩ :: ps) = collect line ps := by
  have hline : line + Piece.lineFeeds ⟨.blank, [' ']⟩ = line := Int.add_zero line
  rw [collect, hline]
  rfl

theorem pieces_print (rest : List Char) : pieces ('p' :: 'r' :: 'i' :: 'n' :: 't' :: ' ' :: rest) =
    ⟨.token .printKw, ['p', 'r', 'i', 'n', 't']⟩ :: ⟨.blank, [' ']⟩ :: pieces rest := by
  have hword : cut 'p' ('r' :: 'i' :: 'n' :: 't' :: ' ' :: rest) =
      (⟨.token .printKw, ['p', 'r', 'i', 'n', 't']⟩, ' ' :: rest) := rfl
  have hblank : cut ' ' rest = (⟨.blank, [' ']⟩, rest) := rfl
  rw [pieces, hword]
  dsimp only
  rw [pieces, hblank]

theorem pieces_minus (rest : List Char) :
    pieces ('-' :: rest) = ⟨.token .minus, ['-']⟩ :: pieces rest := by
  have hcut : cut '-' rest = (⟨.token .minus, ['-']⟩, rest) := rfl
  rw [pieces, hcut]

theorem pieces_semicolon : pieces [';'] = [⟨.token .semicolon, [';']⟩] := by
  have hcut : cut ';' [] = (⟨.token .semicolon, [';']⟩, []) := rfl
  rw [pieces, hcut]
  dsimp only
  rw [pieces]

theorem stops_semicolon : Stops [';'] := by
  intro c hc
  obtain rfl := Option.some.inj hc
  decide

-- A statement that prints what the text stands for.
def printing (text : List Char) : String :=
  "print " ++ String.ofList text ++ ";"

theorem toList_printing (text : List Char) : (printing text).toList =
    'p' :: 'r' :: 'i' :: 'n' :: 't' :: ' ' :: (text ++ [';']) := by
  simp [printing]

theorem Plain.scan_printing (h : Plain text whole fraction) :
    scan (printing text) =
      ⟨[⟨.printKw, "print", .nil, 1⟩,
        ⟨.number, String.ofList text, .number (Number.read text), 1⟩,
        ⟨.semicolon, ";", .nil, 1⟩, ⟨.eof, "", .nil, 1⟩], []⟩ := by
  rw [scan, toList_printing, pieces_print, h.pieces_append stops_semicolon, pieces_semicolon,
    collect_token (by decide), collect_blank, collect_token h.notMem_feed, collect_token (by decide)]
  rfl

theorem Plain.scan_printing_minus (h : Plain text whole fraction) :
    scan (printing ('-' :: text)) =
      ⟨[⟨.printKw, "print", .nil, 1⟩, ⟨.minus, "-", .nil, 1⟩,
        ⟨.number, String.ofList text, .number (Number.read text), 1⟩,
        ⟨.semicolon, ";", .nil, 1⟩, ⟨.eof, "", .nil, 1⟩], []⟩ := by
  rw [scan, toList_printing, pieces_print, List.cons_append, pieces_minus,
    h.pieces_append stops_semicolon, pieces_semicolon, collect_token (by decide), collect_blank,
    collect_token (by decide), collect_token h.notMem_feed, collect_token (by decide)]
  rfl

end

end Lox.Source
