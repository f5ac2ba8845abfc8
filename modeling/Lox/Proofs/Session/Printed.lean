import Lox.Proofs.Session.Reachable
import Lox.Proofs.Source.Shown

namespace Lox

open Source Number

-- How a finite double is shown: the digits of the shortest decimal that rounds to it, without an
-- exponent, and a minus before them if its sign bit is set.
structure Shown (x : Float) (text digits whole fraction : List Char) : Prop where
  sign : text = if isNegative x then '-' :: digits else digits
  plain : Plain digits whole fraction
  shortest : ∃ c e, IsShortest (magnitude x) (worth whole fraction) c e

namespace Run

open Eval

theorem exec_print {fuel : Nat} {e : Expr} {x : Float} {s t : State}
    (h : eval fuel e s = (.ok (.number x), t)) :
    exec fuel (.print e) s =
      (.ok .normal, { t with printed := t.printed ++ Number.display x ++ "\n" }) := by
  rw [eval] at h
  rw [exec, execWith, run_bind_ok h]
  simp only [Value.display, run_bind, run_print, run_pure]

-- A program that prints the value of an expression, if that is a number and nothing else happens.
theorem run_print_number {fuel : Nat} {e : Expr} {x : Float} {s : State}
    (h : eval fuel e s.started = (.ok (.number x), s.started)) :
    run fuel [.print e] s = (.completed, { s.started with printed := Number.display x ++ "\n" }) := by
  have hprinted : s.started.printed = "" := rfl
  rw [run_eq, execTop, run_bind_ok (exec_print h), hprinted, String.empty_append]
  rfl

end Run

theorem parse_print (lexeme : String) (x : Float) :
    Syntax.parse [⟨.printKw, "print", .nil, 1⟩, ⟨.number, lexeme, .number x, 1⟩,
      ⟨.semicolon, ";", .nil, 1⟩, ⟨.eof, "", .nil, 1⟩] =
        ⟨[.print (.literal (.number x))], []⟩ := by
  cbv

theorem parse_print_minus (lexeme : String) (x : Float) :
    Syntax.parse [⟨.printKw, "print", .nil, 1⟩, ⟨.minus, "-", .nil, 1⟩,
      ⟨.number, lexeme, .number x, 1⟩, ⟨.semicolon, ";", .nil, 1⟩, ⟨.eof, "", .nil, 1⟩] =
        ⟨[.print (.unary ⟨.minus, "-", .nil, 1⟩ (.literal (.number x)))], []⟩ := by
  cbv

namespace Session

section

variable (fuel : Nat) (session : Session) {text digits whole fraction : List Char}

theorem run_print {source : String} {tokens : List Token} {e : Expr} {x : Float}
    (hscan : scan source = ⟨tokens, []⟩) (hparse : Syntax.parse tokens = ⟨[.print e], []⟩)
    (heval : ∀ s, Run.eval fuel e s = (.ok (.number x), s)) :
    (session.run fuel source).1 = ⟨display x ++ "\n", [], some .completed⟩ := by
  have haccepted : Accepted source := ⟨by rw [hscan], by rw [hscan, hparse]⟩
  have hprogram : statementsOf source = [.print e] := by rw [statementsOf, hscan, hparse]
  rw [run_of_accepted haccepted, hprogram, Run.run_print_number (heval _)]
  rfl

-- A number that is read from digits is printed as it is, and behind a minus as its opposite.
theorem run_printing (h : Plain digits whole fraction) :
    (session.run fuel (printing digits)).1 =
      ⟨display (Number.read digits) ++ "\n", [], some .completed⟩ :=
  session.run_print fuel h.scan_printing (parse_print _ _) fun _ => rfl

theorem run_printing_minus (h : Plain digits whole fraction) :
    (session.run fuel (printing ('-' :: digits))).1 =
      ⟨display (-Number.read digits) ++ "\n", [], some .completed⟩ :=
  session.run_print fuel h.scan_printing_minus (parse_print_minus _ _) fun _ => rfl

end

end Session

section

variable {x : Float} {text digits whole fraction : List Char}

theorem shown_display (hx : magnitude x < infinity) :
    ∃ digits whole fraction, Shown x (display x).toList digits whole fraction := by
  obtain ⟨whole, fraction, hplain, hshortest⟩ := plain_digitsOf hx
  exact ⟨_, whole, fraction, display_of_finite hx, hplain, hshortest⟩

theorem Shown.read_of_positive (h : Shown x text digits whole fraction) (hx : isNegative x = false) :
    Number.read digits = x := by
  obtain ⟨c, e, hshortest⟩ := h.shortest
  rw [h.plain.read_eq hshortest.rounds, ofPattern_magnitude hx]

-- The digits of a double with its sign bit set are those of its opposite.
theorem Shown.read_of_negative (h : Shown x text digits whole fraction) (hx : isNegative x = true)
    (hfinite : magnitude x < infinity) : -Number.read digits = x := by
  have hopposite : isNegative (-x) = false := by rw [isNegative_neg hfinite, hx, Bool.not_true]
  obtain ⟨c, e, hshortest⟩ := h.shortest
  rw [h.plain.read_eq hshortest.rounds, ← magnitude_neg hfinite, ofPattern_magnitude hopposite,
    neg_neg_of_finite hfinite]

theorem Shown.scan_of_positive (h : Shown x text digits whole fraction) (hx : isNegative x = false) :
    scan (String.ofList text) =
      ⟨[⟨.number, String.ofList text, .number x, 1⟩, ⟨.eof, "", .nil, 1⟩], []⟩ := by
  have htext : text = digits := by rw [h.sign, hx, if_neg (by decide)]
  rw [htext, h.plain.scan_eq, h.read_of_positive hx]

theorem Shown.run_printing (h : Shown x text digits whole fraction) (hfinite : magnitude x < infinity)
    (fuel : Nat) (session : Session) :
    (session.run fuel (printing text)).1 = ⟨display x ++ "\n", [], some .completed⟩ := by
  have htext := h.sign
  cases hx : isNegative x with
  | false =>
    rw [hx, if_neg (by decide)] at htext
    rw [htext, session.run_printing fuel h.plain, h.read_of_positive hx]
  | true =>
    rw [hx, if_pos rfl] at htext
    rw [htext, session.run_printing_minus fuel h.plain, h.read_of_negative hx hfinite]

end

-- The text that shows a finite double says which one it is. It is the shortest decimal that rounds
-- to it; as a program it is one token with the double as its value, unless it starts with a minus;
-- a program that prints it prints the same text; and no other finite double is shown as it.
theorem display_reads_back (x : Float) (hx : x.isFinite = true) :
    ∃ text, (Value.number x).display = .ok text ∧
      (∃ digits whole fraction, Shown x text.toList digits whole fraction) ∧
      (isNegative x = false →
        scan text = ⟨[⟨.number, text, .number x, 1⟩, ⟨.eof, "", .nil, 1⟩], []⟩) ∧
      (∀ (fuel : Nat) (session : Session),
        (session.run fuel ("print " ++ text ++ ";")).1 = ⟨text ++ "\n", [], some .completed⟩) ∧
      ∀ y : Float, y.isFinite = true → y.toBits ≠ x.toBits →
        (Value.number y).display ≠ .ok text := by
  have hfinite := isFinite_iff.1 hx
  obtain ⟨digits, whole, fraction, hshown⟩ := shown_display hfinite
  refine ⟨display x, rfl, ⟨digits, whole, fraction, hshown⟩, fun hsign => ?_, fun fuel session => ?_,
    fun y hy hbits hdisplay => hbits ?_⟩
  · have hscan := hshown.scan_of_positive hsign
    rwa [String.ofList_toList] at hscan
  · have hrun := hshown.run_printing hfinite fuel session
    rwa [printing, String.ofList_toList] at hrun
  · rw [display_injective (isFinite_iff.1 hy) hfinite (Except.ok.inj hdisplay)]

-- The double nearest to a tenth, and the zero with a sign.
theorem display_reads_back_tenth_and_zero :
    scan "0.1" = ⟨[⟨.number, "0.1", .number (ofPattern 0x3fb999999999999a), 1⟩,
        ⟨.eof, "", .nil, 1⟩], []⟩ ∧
      ∀ (fuel : Nat) (session : Session),
        (session.run fuel "print -0;").1 = ⟨"-0\n", [], some .completed⟩ := by
  have htenth : (ofPattern 0x3fb999999999999a).isFinite = true := by decide +kernel
  have hzero : (-ofPattern 0).isFinite = true := by decide +kernel
  have hpositive : isNegative (ofPattern 0x3fb999999999999a) = false := by decide +kernel
  have hshown : display (ofPattern 0x3fb999999999999a) = "0.1" := by decide +kernel
  have hshown' : display (-ofPattern 0) = "-0" := by decide +kernel
  obtain ⟨text, hdisplay, -, hscan, -⟩ := display_reads_back (ofPattern 0x3fb999999999999a) htenth
  obtain ⟨text', hdisplay', -, -, hrun, -⟩ := display_reads_back (-ofPattern 0) hzero
  obtain rfl : text = "0.1" := (Except.ok.inj hdisplay).symm.trans hshown
  obtain rfl : text' = "-0" := (Except.ok.inj hdisplay').symm.trans hshown'
  exact ⟨hscan hpositive, hrun⟩

end Lox
