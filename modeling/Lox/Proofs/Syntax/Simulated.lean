import Lox.Proofs.Syntax.DepthStatement
import Lox.Proofs.Syntax.Walk

namespace Lox.Syntax

open Rule

-- Where the tokens of a program end. What stands behind that is left open.
structure Ends (before : List Token) (stop : Token) : Prop where
  before : ∀ t ∈ before, t.kind ≠ .eof
  stop : stop.kind = .eof

-- The tokens that are left where a walk stands.
def Cursor.At (before rest : List Token) (cursor : Cursor) : Prop :=
  ∃ used, before = used ++ rest ∧ cursor.place = used.length

-- No index is beyond the last one and no place is behind it, and a declaration reads something.
def Event.Within (last : Nat) : Event → Prop
  | .looked index place => 0 ≤ index ∧ index ≤ last ∧ place ≤ last
  | .declared start stop => start < stop ∧ stop ≤ last

def Outcome.of {α : Type} : Option α → Outcome α
  | some a => .value a
  | none => .broken

-- A walk ends as a reading says, in the same way whatever stands behind the end.
structure GoesTo {α : Type} (before : List Token) (stop : Token) (w : Walk α)
    (cursor after : Cursor) (reading : Reading α) : Prop where
  run : ∀ more, w (before ++ stop :: more) cursor = (.of reading.value, after)
  place : after.At before reading.rest
  forward : cursor.place ≤ after.place
  errors : after.errors = cursor.errors ++ reading.errors
  events : ∃ events, after.events = cursor.events ++ events ∧ ∀ e ∈ events, e.Within before.length

def Goes {α : Type} (before : List Token) (stop : Token) (w : Walk α) (cursor : Cursor)
    (reading : Reading α) : Prop :=
  ∃ after, GoesTo before stop w cursor after reading

-- A walk goes as a rule reads, wherever a condition holds and up to so many tokens are left.
def Simulates {α : Type} (P : (before rest : List Token) → Prop) (n : Nat) (w : Walk α)
    (r : Rule α) : Prop :=
  ∀ before stop, Ends before stop → ∀ rest cursor, Cursor.At before rest cursor → P before rest →
    rest.length ≤ n → Goes before stop w cursor (r stop rest)

def Anywhere (_ _ : List Token) : Prop :=
  True

def NotAtEnd (_ rest : List Token) : Prop :=
  rest ≠ []

-- The given token was read last.
def After (t : Token) (before rest : List Token) : Prop :=
  ∃ used, before = used ++ t :: rest

section

variable {α β : Type} {before rest middle : List Token} {stop : Token} {cursor : Cursor}
  {first : List SyntaxError}

theorem Cursor.At.place_add (h : cursor.At before rest) :
    cursor.place + rest.length = before.length := by
  obtain ⟨used, rfl, hplace⟩ := h
  rw [hplace, List.length_append]

-- One walk that goes on as another one does after it.
theorem GoesTo.trans {w : Walk α} {k both : Walk β} {c after : Cursor} {start : Reading α}
    {reading : Reading β} (hw : GoesTo before stop w cursor c start)
    (hk : GoesTo before stop k c after reading)
    (hrun : ∀ more, both (before ++ stop :: more) cursor = k (before ++ stop :: more) c) :
    GoesTo before stop both cursor after (reading.after start.errors) where
  run more := (hrun more).trans (hk.run more)
  place := hk.place
  forward := Nat.le_trans hw.forward hk.forward
  errors := by
    rw [hk.errors, hw.errors, List.append_assoc]
    rfl
  events := by
    obtain ⟨es, hes, hall⟩ := hw.events
    obtain ⟨es', hes', hall'⟩ := hk.events
    refine ⟨es ++ es', by rw [hes', hes, List.append_assoc], fun e he => ?_⟩
    exact (List.mem_append.1 he).elim (hall e) (hall' e)

theorem Goes.bind {w : Walk α} {k : α → Walk β} {a : α} {reading : Reading β}
    (hw : Goes before stop w cursor ⟨some a, middle, first⟩)
    (hk : ∀ c, c.At before middle → cursor.place ≤ c.place → Goes before stop (k a) c reading) :
    Goes before stop (w >>= k) cursor (reading.after first) := by
  obtain ⟨c, hw⟩ := hw
  obtain ⟨after, hk⟩ := hk c hw.place hw.forward
  refine ⟨after, hw.trans hk fun more => ?_⟩
  have hrun := hw.run more
  simp only [Bind.bind, hrun]
  rfl

theorem Goes.bind_none {w : Walk α} (k : α → Walk β)
    (hw : Goes before stop w cursor ⟨none, rest, first⟩) :
    Goes before stop (w >>= k) cursor ⟨none, rest, first⟩ := by
  obtain ⟨after, hw⟩ := hw
  refine ⟨after, fun more => ?_, hw.place, hw.forward, hw.errors, hw.events⟩
  have hrun := hw.run more
  simp only [Bind.bind, hrun]
  rfl

-- What reads and reports nothing goes on from where it started.
theorem Goes.then {w : Walk α} {k : α → Walk β} {a : α} {reading : Reading β}
    (hw : Goes before stop w cursor ⟨some a, middle, []⟩)
    (hk : ∀ c, c.At before middle → cursor.place ≤ c.place → Goes before stop (k a) c reading) :
    Goes before stop (w >>= k) cursor reading :=
  hw.bind hk

theorem goes_pure (a : α) (h : cursor.At before rest) :
    Goes before stop (pure a) cursor ⟨some a, rest, []⟩ :=
  ⟨cursor, fun _ => rfl, h, Nat.le_refl _, (List.append_nil _).symm, [],
    (List.append_nil _).symm, by simp⟩

theorem goes_raise (token : Token) (fault : SyntaxFault) (h : cursor.At before rest) :
    Goes before stop (Walk.raise token fault : Walk α) cursor ⟨none, rest, [⟨token, fault⟩]⟩ :=
  ⟨{ cursor with errors := cursor.errors ++ [⟨token, fault⟩] }, fun _ => rfl, h, Nat.le_refl _,
    rfl, [], (List.append_nil _).symm, by simp⟩

theorem goes_look {distance : Int} {token : Token} (h : cursor.At before rest)
    (hlow : 0 ≤ cursor.place + distance) (hhigh : cursor.place + distance ≤ before.length)
    (ht : (before ++ [stop])[(cursor.place + distance).toNat]? = some token) :
    Goes before stop (Walk.look distance) cursor ⟨some token, rest, []⟩ := by
  have hplace := h.place_add
  let event := Event.looked (cursor.place + distance) cursor.place
  refine ⟨{ cursor with events := cursor.events ++ [event] }, fun more => ?_, h, Nat.le_refl _,
    (List.append_nil _).symm, [event], rfl, ?_⟩
  · have hindex : (before ++ stop :: more)[(cursor.place + distance).toNat]? = some token := by
      rw [List.append_cons, List.getElem?_append_left, ht]
      rw [List.length_append, List.length_singleton]
      omega
    simp only [Walk.look, tokenAt?, if_pos hlow, hindex]
    rfl
  · simp only [List.mem_singleton, forall_eq, event, Event.Within]
    omega

theorem goes_peek (h : cursor.At before rest) :
    Goes before stop Walk.peek cursor ⟨some (rest.headD stop), rest, []⟩ := by
  have hplace := h.place_add
  refine goes_look h (by omega) (by omega) ?_
  obtain ⟨used, rfl, hused⟩ := h
  have hindex : ((cursor.place : Int) + 0).toNat = used.length := by omega
  rw [hindex, List.append_assoc, List.getElem?_append_right (Nat.le_refl _), Nat.sub_self]
  cases rest <;> rfl

theorem goes_previous {t : Token} (h : cursor.At before rest) (hlast : After t before rest) :
    Goes before stop Walk.previous cursor ⟨some t, rest, []⟩ := by
  have hplace := h.place_add
  obtain ⟨used, rfl⟩ := hlast
  rw [List.length_append, List.length_cons] at hplace
  refine goes_look h (by omega) (by rw [List.length_append, List.length_cons]; omega) ?_
  have hindex : ((cursor.place : Int) + -1).toNat = used.length := by omega
  rw [hindex, List.append_assoc, List.getElem?_append_right (Nat.le_refl _), Nat.sub_self]
  rfl

theorem goes_atEnd (hends : Ends before stop) (h : cursor.At before rest) :
    Goes before stop Walk.atEnd cursor ⟨some rest.isEmpty, rest, []⟩ := by
  refine (goes_peek h).then fun c hc _ => ?_
  have hkind : decide ((rest.headD stop).kind = .eof) = rest.isEmpty := by
    obtain ⟨used, rfl, -⟩ := h
    cases rest with
    | nil => simp [hends.stop]
    | cons t ts => simp [hends.before t (by simp)]
  rw [hkind]
  exact goes_pure _ hc

theorem goes_check (hends : Ends before stop) (h : cursor.At before rest) (kind : TokenKind) :
    Goes before stop (Walk.check kind) cursor
      ⟨some (rest.head?.any (·.kind = kind)), rest, []⟩ := by
  refine (goes_atEnd hends h).then fun c hc _ => ?_
  cases rest with
  | nil => exact goes_pure false hc
  | cons t ts => exact (goes_peek hc).then fun c hc _ => goes_pure _ hc

theorem goes_checkAny (hends : Ends before stop) (h : cursor.At before rest)
    (kinds : List TokenKind) :
    Goes before stop (Walk.checkAny kinds) cursor
      ⟨some (rest.head?.any (·.kind ∈ kinds)), rest, []⟩ := by
  induction kinds generalizing cursor with
  | nil =>
    have hnone : rest.head?.any (·.kind ∈ []) = false := by cases rest <;> simp
    rw [hnone]
    exact goes_pure false h
  | cons kind kinds ih =>
    refine (goes_check hends h kind).then fun c hc _ => ?_
    split
    · next hkind =>
      have hany : rest.head?.any (·.kind ∈ kind :: kinds) = true := by
        cases rest with
        | nil => cases hkind
        | cons t ts => simpa using .inl (of_decide_eq_true hkind)
      rw [hany]
      exact goes_pure true hc
    · next hkind =>
      have hany : rest.head?.any (·.kind ∈ kind :: kinds) = rest.head?.any (·.kind ∈ kinds) := by
        cases rest with
        | nil => rfl
        | cons t ts =>
          have hne : t.kind ≠ kind := by simpa using hkind
          simp [hne]
      rw [hany]
      exact ih hc

theorem goes_advance {t : Token} {ts : List Token} (hends : Ends before stop)
    (h : cursor.At before (t :: ts)) :
    Goes before stop Walk.advance cursor ⟨some t, ts, []⟩ := by
  refine (goes_atEnd hends h).then fun c hc _ => ?_
  obtain ⟨used, rfl, hplace⟩ := hc
  have hstep : Goes (used ++ t :: ts) stop Walk.step c ⟨some (), ts, []⟩ :=
    ⟨{ c with place := c.place + 1 }, fun _ => rfl,
      ⟨used ++ [t], by simp, by simp [hplace]⟩, Nat.le_succ _, (List.append_nil _).symm, [],
      (List.append_nil _).symm, by simp⟩
  exact hstep.then fun c hc _ => goes_previous hc ⟨used, rfl⟩

theorem goes_accept_free {kinds : List TokenKind} (hends : Ends before stop)
    (h : cursor.At before rest) (hfree : Free kinds rest) :
    Goes before stop (Walk.accept kinds) cursor ⟨some false, rest, []⟩ := by
  have hany : rest.head?.any (·.kind ∈ kinds) = false := by
    cases rest with
    | nil => rfl
    | cons t ts => simpa using hfree
  have hcheck := goes_checkAny hends h kinds
  rw [hany] at hcheck
  exact hcheck.then fun c hc _ => goes_pure false hc

theorem goes_accept {kinds : List TokenKind} {t : Token} {ts : List Token}
    (hends : Ends before stop) (h : cursor.At before (t :: ts)) (ht : t.kind ∈ kinds) :
    Goes before stop (Walk.accept kinds) cursor ⟨some true, ts, []⟩ := by
  have hany : (t :: ts).head?.any (·.kind ∈ kinds) = true := by simpa using ht
  have hcheck := goes_checkAny hends h kinds
  rw [hany] at hcheck
  exact hcheck.then fun c hc _ => (goes_advance hends hc).then fun c hc _ => goes_pure true hc

theorem Cursor.At.after {t : Token} {ts : List Token} (h : cursor.At before (t :: ts)) :
    After t before ts := by
  obtain ⟨used, rfl, -⟩ := h
  exact ⟨used, rfl⟩

end

namespace Simulates

variable {α β : Type} {P : (before rest : List Token) → Prop} {n : Nat} {w : Walk α} {r : Rule α}

theorem mono {m : Nat} (h : Simulates P n w r) (hm : m ≤ n) : Simulates P m w r :=
  fun before stop hends rest cursor hat hp hlen =>
    h before stop hends rest cursor hat hp (Nat.le_trans hlen hm)

theorem anywhere (h : Simulates Anywhere n w r) : Simulates P n w r :=
  fun before stop hends rest cursor hat _ hlen =>
    h before stop hends rest cursor hat trivial hlen

theorem weaken {m : Nat} (h : Simulates Anywhere n w r) (hm : m ≤ n) : Simulates P m w r :=
  (h.mono hm).anywhere

theorem of_agrees {r' : Rule α} (h : Simulates P n w r) (ha : r.Agrees n r') :
    Simulates P n w r' := by
  intro before stop hends rest cursor hat hp hlen
  rw [← ha stop rest hlen]
  exact h before stop hends rest cursor hat hp hlen

theorem pure (a : α) : Simulates P n (pure a) (pure a) :=
  fun _ _ _ _ _ hat _ _ => goes_pure a hat

-- A walk never goes back, so what follows has no more tokens left.
theorem bind {k : α → Walk β} {f : α → Rule β} (hw : Simulates P n w r)
    (hk : ∀ a, Simulates Anywhere n (k a) (f a)) : Simulates P n (w >>= k) (r >>= f) := by
  intro before stop hends rest cursor hat hp hlen
  have hgoes := hw before stop hends rest cursor hat hp hlen
  rcases hrun : r stop rest with ⟨_ | a, middle, errors⟩ <;> rw [hrun] at hgoes
  · rw [run_bind_none f hrun]
    exact hgoes.bind_none k
  · rw [run_bind hrun]
    refine hgoes.bind fun c hc hle => hk a before stop hends middle c hc trivial ?_
    have hplace := hat.place_add
    have hplace' := hc.place_add
    omega

theorem map (g : α → β) (hw : Simulates P n w r) : Simulates P n (g <$> w) (g <$> r) := by
  have hgo := hw.bind fun a => Simulates.pure (g a)
  rwa [← map_eq_pure_bind g r] at hgo

theorem report (token : Token) (fault : SyntaxFault) :
    Simulates P n (Walk.report token fault) (complain token fault) :=
  fun _ _ _ _ cursor hat _ _ =>
    ⟨{ cursor with errors := cursor.errors ++ [⟨token, fault⟩] }, fun _ => rfl, hat,
      Nat.le_refl _, rfl, [], (List.append_nil _).symm, by simp⟩

-- The token that was read last is at hand.
theorem previous {t : Token} {k : Token → Walk α} (h : Simulates Anywhere n (k t) r) :
    Simulates (After t) n (Walk.previous >>= k) r :=
  fun before stop hends rest _ hat hp hlen => (goes_previous hat hp).then fun c hc _ =>
    h before stop hends rest c hc trivial hlen

theorem accept {kinds : List TokenKind} {k l : Walk α} {f : Option Token → Rule α}
    (hnone : Simulates Anywhere n l (f none))
    (hsome : ∀ t, t.kind ∈ kinds → ∀ m < n, Simulates (After t) m k (f (some t))) :
    Simulates P n (Walk.accept kinds >>= fun b => if b = true then k else l)
      (take? kinds >>= f) := by
  intro before stop hends rest cursor hat hp hlen
  by_cases hfree : Free kinds rest
  · rw [run_bind (take?_free hfree)]
    exact (goes_accept_free hends hat hfree).then fun c hc _ =>
      hnone before stop hends rest c hc trivial hlen
  · cases rest with
    | nil => exact absurd (free_nil kinds) hfree
    | cons t ts =>
      rw [free_cons, not_not] at hfree
      rw [run_bind (take?_cons hfree)]
      exact (goes_accept hends hat hfree).then fun c hc _ =>
        hsome t hfree ts.length hlen before stop hends ts c hc hat.after (Nat.le_refl _)

-- What is decided by the kind of the next token.
theorem checked {kind : TokenKind} {k l : Walk α} {f g : Rule α} (hyes : Simulates P n k f)
    (hno : Simulates P n l g) :
    Simulates P n (Walk.check kind >>= fun b => if b = true then k else l)
      (Rule.peek >>= fun next => if next = some kind then f else g) := by
  intro before stop hends rest cursor hat hp hlen
  rw [run_bind (peek_eq_some.2 ⟨rfl, rfl, rfl⟩)]
  have hnext : rest.head?.any (·.kind = kind) = true ↔ rest.head?.map Token.kind = some kind := by
    cases rest <;> simp
  refine (goes_check hends hat kind).then fun c hc _ => ?_
  by_cases hkind : rest.head?.map Token.kind = some kind
  · rw [if_pos hkind, if_pos (hnext.2 hkind)]
    exact hyes before stop hends rest c hc hp hlen
  · rw [if_neg hkind, if_neg (mt hnext.1 hkind)]
    exact hno before stop hends rest c hc hp hlen

theorem raise (fault : SyntaxFault) :
    Simulates P n (Walk.peek >>= fun t => Walk.raise t fault) (fail fault : Rule α) :=
  fun _ _ _ _ _ hat _ _ => (goes_peek hat).then fun _ hc _ => goes_raise _ fault hc

theorem consume (kind : TokenKind) (fault : SyntaxFault) :
    Simulates P n (Walk.consume kind fault) (expect kind fault) := by
  intro before stop hends rest cursor hat hp hlen
  refine (goes_check hends hat kind).then fun c hc _ => ?_
  by_cases hfree : Free [kind] rest
  · have hno : ¬ rest.head?.any (·.kind = kind) = true := by
      cases rest with
      | nil => exact Bool.false_ne_true
      | cons t ts => simpa using hfree
    rw [if_neg hno, expect_free hfree]
    exact raise fault before stop hends rest c hc hp hlen
  · cases rest with
    | nil => exact absurd (free_nil _) hfree
    | cons t ts =>
      rw [free_cons, not_not, List.mem_singleton] at hfree
      rw [if_pos (by simpa using hfree), expect_cons hfree]
      exact goes_advance hends hc

theorem here {k : Token → Walk α} {f : Token → Rule α} (h : ∀ t, Simulates P n (k t) (f t)) :
    Simulates P n (Walk.peek >>= k) (Rule.here >>= f) :=
  fun before stop hends rest _ hat hp hlen => (goes_peek hat).then fun c hc _ =>
    h (rest.headD stop) before stop hends rest c hc hp hlen

theorem remark (what : ListItem) (count : Nat) :
    Simulates P n (Walk.remark what count) (remark what count) := by
  unfold Walk.remark Syntax.remark
  split
  · exact .here fun t => .report t _
  · exact .pure ()

end Simulates

end Lox.Syntax
