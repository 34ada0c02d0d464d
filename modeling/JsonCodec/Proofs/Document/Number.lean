/-
Reading number literals: the reader takes exactly the literals of the grammar, and gives each its
value, where the digits of an exponent come to `NumberLiteral.exponentSize`.

Each part is read as far as it goes. So a literal is read whole if nothing follows that it could
go on with, and what the reader takes is a literal in any case.
-/
import JsonCodec.Proofs.Binary64.Shortest
import JsonCodec.Proofs.Document.Cursor
import JsonCodec.Proofs.Grammar
import JsonCodec.Proofs.Integer
import JsonCodec.Document.NumberLiteral

namespace JsonCodec.NumberLiteral

open Ascii Grammar

variable {c c' : Cursor}

/-! ## The parts -/

theorem stops_of_digits {digits : Bytes} {p : UInt8 → Bool} (h : c.Passes digits c')
    (hd : IsDigits digits) (hp : ∀ b, isDigit b = true → p b = false) : c.Stops p := by
  intro b hb
  rw [h.peek hd.1] at hb
  exact hp b (hd.2 b (List.mem_of_mem_head? hb))

theorem readSign_eq_iff {negative : Bool} :
    readSign c = (negative, c') ↔
      c.Passes (if negative then [minus] else []) c' ∧
        (negative = false → c'.Stops (· == minus)) := by
  unfold readSign
  split
  · next h =>
    cases negative with
    | true => simp [Cursor.passes_singleton, h, eq_comm]
    | false =>
      simp only [Prod.mk.injEq, Bool.true_eq_false, false_and, Bool.false_eq_true, ite_false,
        Cursor.passes_nil, forall_const, false_iff, not_and]
      rintro rfl hs
      exact absurd (hs minus h) (by decide)
  · next h =>
    cases negative with
    | true => simp [Cursor.passes_singleton, h]
    | false =>
      simp only [Prod.mk.injEq, true_and, Bool.false_eq_true, ite_false, Cursor.passes_nil,
        forall_const]
      constructor
      · rintro rfl
        refine ⟨rfl, fun b hb => beq_false_of_ne ?_⟩
        rintro rfl
        exact h hb
      · exact fun h => h.1.symm

theorem readDigits_eq_ok_iff {digits : Bytes} :
    readDigits c = .ok (digits, c') ↔ c.Passes digits c' ∧ IsDigits digits ∧ c'.Stops isDigit := by
  have hspan := @Cursor.span_eq_iff c c' digits isDigit
  unfold readDigits
  split
  · next h =>
    simp only [reduceCtorEq, false_iff, not_and]
    intro hp ⟨hne, hall⟩ hs
    rw [hspan.2 ⟨hp, hall, hs⟩] at h
    exact hne (congrArg Prod.fst h)
  · next h =>
    rw [Except.ok.injEq, hspan]
    constructor
    · intro ⟨hp, hall, hs⟩
      refine ⟨hp, ⟨?_, hall⟩, hs⟩
      rintro rfl
      exact h c' (hspan.2 ⟨hp, hall, hs⟩)
    · exact fun ⟨hp, ⟨_, hall⟩, hs⟩ => ⟨hp, hall, hs⟩

theorem readWhole_eq_ok_iff {start : Nat} {digits : Bytes} :
    readWhole start c = .ok (digits, c') ↔
      c.Passes digits c' ∧ Digits.isCanonical digits = true ∧
        (digits ≠ [zero] → c'.Stops isDigit) := by
  have first {b : UInt8} (hb : c.peek = some b) (hp : c.Passes digits c')
      (hc : Digits.isCanonical digits = true) : digits.head? = some b := by
    rw [← hb, hp.peek (Digits.isCanonical_iff.1 hc).1]
  unfold readWhole
  split
  · next b hb =>
    split
    · next hz =>
      subst hz
      simp only [Except.ok.injEq, Prod.mk.injEq]
      constructor
      · rintro ⟨rfl, rfl⟩
        exact ⟨Cursor.passes_singleton.2 ⟨hb, rfl⟩, rfl, fun h => absurd rfl h⟩
      · intro ⟨hp, hc, _⟩
        obtain rfl := (Digits.isCanonical_iff.1 hc).2.2 (first hb hp hc)
        exact ⟨rfl, (Cursor.passes_singleton.1 hp).2.symm⟩
    · next hz =>
      split
      · next hd =>
        rw [Except.ok.injEq, Cursor.span_eq_iff]
        constructor
        · intro ⟨hp, hall, hs⟩
          have hne : digits ≠ [] := by
            rintro rfl
            rw [Cursor.passes_nil.1 hp] at hs
            exact absurd (hs b hb) (by simp [hd])
          refine ⟨hp, Digits.isCanonical_iff.2 ⟨hne, hall, fun h => ?_⟩, fun _ => hs⟩
          rw [← hp.peek hne, hb] at h
          exact absurd (Option.some.inj h) hz
        · intro ⟨hp, hc, hs⟩
          refine ⟨hp, (Digits.isCanonical_iff.1 hc).2.1, hs ?_⟩
          rintro rfl
          exact hz (Option.some.inj (first hb hp hc)).symm
      · next hd =>
        simp only [reduceCtorEq, false_iff, not_and]
        intro hp hc
        have := (Digits.isCanonical_iff.1 hc).2.1 b (List.mem_of_mem_head? (first hb hp hc))
        exact absurd this hd
  · next hn =>
    simp only [reduceCtorEq, false_iff, not_and]
    intro hp hc
    obtain ⟨a, rest, rfl⟩ := List.exists_cons_of_ne_nil (Digits.isCanonical_iff.1 hc).1
    rw [hp.peek (List.cons_ne_nil a rest)] at hn
    cases hn

/-- The point and the digits behind it, if they are there. -/
def fractionBytes (fraction : Option Bytes) : Bytes := (fraction.map (point :: ·)).getD []

def exponentBytes (exponent : Option Exponent) : Bytes := (exponent.map Exponent.bytes).getD []

theorem readFraction_eq_ok_iff {fraction : Option Bytes} :
    readFraction c = .ok (fraction, c') ↔
      c.Passes (fractionBytes fraction) c' ∧ (∀ digits ∈ fraction, IsDigits digits) ∧
        c'.Stops fun b => if fraction.isSome then isDigit b else b == point := by
  unfold readFraction
  split
  · next h =>
    simp only [bind, Except.bind, pure, Except.pure]
    cases fraction with
    | none =>
      simp only [fractionBytes, Option.map_none, Option.getD_none, Cursor.passes_nil,
        Option.isSome_none, Bool.false_eq_true, ite_false]
      constructor
      · intro hr
        split at hr <;> simp at hr
      · rintro ⟨rfl, -, hs⟩
        exact absurd (hs point h) (by decide)
    | some digits =>
      simp only [fractionBytes, Option.map_some, Option.getD_some, Option.isSome_some, ite_true,
        Option.mem_def, Option.some.injEq, forall_eq']
      rw [← List.singleton_append, Cursor.passes_append]
      constructor
      · intro hr
        split at hr
        · cases hr
        · next found he =>
          cases hr
          obtain ⟨hp, hd, hs⟩ := readDigits_eq_ok_iff.1 he
          exact ⟨⟨_, Cursor.passes_singleton.2 ⟨h, rfl⟩, hp⟩, hd, hs⟩
      · intro ⟨⟨m, hm, hp⟩, hd, hs⟩
        obtain ⟨-, rfl⟩ := Cursor.passes_singleton.1 hm
        rw [readDigits_eq_ok_iff.2 ⟨hp, hd, hs⟩]
  · next h =>
    simp only [pure, Except.pure, Except.ok.injEq, Prod.mk.injEq]
    constructor
    · rintro ⟨rfl, rfl⟩
      refine ⟨Cursor.passes_nil.2 rfl, fun _ hd => (Option.not_mem_none _ hd).elim, fun b hb => ?_⟩
      exact beq_false_of_ne fun hp => h (hp ▸ hb)
    · intro ⟨hp, _, _⟩
      cases fraction with
      | none => exact ⟨rfl, (Cursor.passes_nil.1 hp).symm⟩
      | some digits => exact absurd (hp.peek (List.cons_ne_nil point digits)) h

/-- The letters that an exponent starts with. -/
def isExponentLetter (b : UInt8) : Bool := b == letterE || b == capitalE

theorem isExponentLetter_iff {b : UInt8} :
    isExponentLetter b = true ↔ b = letterE ∨ b = capitalE := by
  simp [isExponentLetter]

theorem exponentSign_iff {negative : Bool} :
    (if c.peek = some plus then (false, c.advance 1) else readSign c) = (negative, c') ↔
      ∃ sign : Option UInt8, (sign = none ∨ sign = some plus ∨ sign = some minus) ∧
        negative = decide (sign = some minus) ∧ c.Passes sign.toList c' ∧
        (sign = none → c'.Stops fun b => b == plus || b == minus) := by
  split
  · next h =>
    simp only [Prod.mk.injEq]
    constructor
    · rintro ⟨rfl, rfl⟩
      exact ⟨some plus, .inr (.inl rfl), rfl, Cursor.passes_singleton.2 ⟨h, rfl⟩, fun hn => nomatch hn⟩
    · rintro ⟨sign, rfl | rfl | rfl, rfl, hp, hs⟩
      · obtain rfl := Cursor.passes_nil.1 hp
        exact absurd (hs rfl plus h) (by decide)
      · exact ⟨rfl, (Cursor.passes_singleton.1 hp).2.symm⟩
      · rw [(Cursor.passes_singleton.1 hp).1] at h
        cases h
  · next h =>
    rw [readSign_eq_iff]
    constructor
    · intro ⟨hp, hs⟩
      cases negative with
      | true => exact ⟨some minus, .inr (.inr rfl), rfl, hp, fun hn => nomatch hn⟩
      | false =>
        refine ⟨none, .inl rfl, rfl, hp, fun _ b hb => ?_⟩
        obtain rfl := Cursor.passes_nil.1 hp
        have hplus : (b == plus) = false := beq_false_of_ne fun hp => h (hp ▸ hb)
        exact Bool.or_eq_false_iff.2 ⟨hplus, hs rfl b hb⟩
    · rintro ⟨sign, rfl | rfl | rfl, rfl, hp, hs⟩
      · exact ⟨hp, fun _ => (hs rfl).mono fun b hb => by simp [hb]⟩
      · exact absurd (Cursor.passes_singleton.1 hp).1 h
      · exact ⟨hp, fun hn => nomatch hn⟩

theorem readExponent_eq_ok_iff {x : Option Int} :
    readExponent c = .ok (x, c') ↔ ∃ e : Option Exponent, x = e.map (·.value exponentSize) ∧
      c.Passes (exponentBytes e) c' ∧
      c'.Stops fun b => if e.isSome then isDigit b else isExponentLetter b := by
  unfold readExponent
  split
  · next h =>
    obtain ⟨letter, hletter, hpeek⟩ : ∃ b, (b = letterE ∨ b = capitalE) ∧ c.peek = some b := by
      rcases h with h | h
      · exact ⟨_, .inl rfl, h⟩
      · exact ⟨_, .inr rfl, h⟩
    simp only [bind, Except.bind, pure, Except.pure]
    constructor
    · generalize hm : (if (c.advance 1).peek = some plus then (false, (c.advance 1).advance 1)
        else readSign (c.advance 1)) = found
      obtain ⟨negative, m⟩ := found
      intro hr
      split at hr
      · cases hr
      · next found he =>
        cases hr
        obtain ⟨sign, hsign, rfl, hp, -⟩ := exponentSign_iff.1 hm
        obtain ⟨hd, hdigits, hs⟩ := readDigits_eq_ok_iff.1 he
        refine ⟨some ⟨letter, sign, found.1, hletter, hsign, hdigits⟩, ?_, ?_, hs⟩
        · simp [Exponent.value]
        · exact (Cursor.passes_singleton.2 ⟨hpeek, rfl⟩).trans (hp.trans hd)
    · rintro ⟨_ | e, rfl, hp, hs⟩
      · obtain rfl := Cursor.passes_nil.1 hp
        exact absurd (hs letter hpeek) (by simpa using isExponentLetter_iff.2 hletter)
      · have hp : c.Passes ([e.letter] ++ (e.sign.toList ++ e.digits)) c' := hp
        obtain ⟨m, hm, hp⟩ := Cursor.passes_append.1 hp
        obtain ⟨m', hsign, hd⟩ := Cursor.passes_append.1 hp
        obtain ⟨-, rfl⟩ := Cursor.passes_singleton.1 hm
        have hstop : m'.Stops fun b => b == plus || b == minus := by
          refine stops_of_digits hd e.digits_ok fun b hb => Bool.or_eq_false_iff.2 ⟨?_, ?_⟩ <;>
            exact beq_false_of_ne fun h => absurd hb (by rw [h]; decide)
        rw [exponentSign_iff.2 ⟨e.sign, e.sign_mem, rfl, hsign, fun _ => hstop⟩]
        simp only
        rw [readDigits_eq_ok_iff.2 ⟨hd, e.digits_ok, hs⟩]
        simp [Exponent.value]
  · next h =>
    simp only [pure, Except.pure, Except.ok.injEq, Prod.mk.injEq]
    constructor
    · rintro ⟨rfl, rfl⟩
      refine ⟨none, rfl, Cursor.passes_nil.2 rfl, fun b hb => ?_⟩
      cases he : isExponentLetter b with
      | false => simp [he]
      | true =>
        rcases isExponentLetter_iff.1 he with rfl | rfl
        · exact absurd (.inl hb) h
        · exact absurd (.inr hb) h
    · rintro ⟨_ | e, rfl, hp, -⟩
      · exact ⟨rfl, (Cursor.passes_nil.1 hp).symm⟩
      · have hpeek : c.peek = some e.letter := hp.peek (List.cons_ne_nil e.letter _)
        rw [hpeek, Option.some.injEq, Option.some.injEq] at h
        exact absurd e.letter_mem h

/-! ## The literal -/

/-- The bytes that a literal can go on with. -/
def isNumberByte (b : UInt8) : Bool := isDigit b || b == point || isExponentLetter b

/-- The parts of a literal as the reader gives them. -/
def ofGrammar (n : Number) : NumberLiteral :=
  ⟨n.negative, n.whole, n.fraction, n.exponent.map (·.value exponentSize)⟩

/-- Whether a literal goes on with a byte that comes next. -/
def goesOn (l : NumberLiteral) (b : UInt8) : Bool :=
  if l.exponent.isSome then isDigit b
  else isExponentLetter b ||
    if l.fraction.isSome then isDigit b else b == point || (l.whole != [zero] && isDigit b)

theorem isNumberByte_of_goesOn {l : NumberLiteral} {b : UInt8} (h : l.goesOn b = true) :
    isNumberByte b = true := by
  simp only [goesOn] at h
  simp only [isNumberByte, Bool.or_eq_true]
  split at h
  · exact .inl (.inl h)
  · simp only [Bool.or_eq_true] at h
    rcases h with h | h
    · exact .inr h
    · split at h
      · exact .inl (.inl h)
      · simp only [Bool.or_eq_true, Bool.and_eq_true] at h
        exact h.elim (fun h => .inl (.inr h)) fun h => .inl (.inl h.2)

/-- What is read is a literal, as far as it goes on. -/
theorem exists_of_parts {l : NumberLiteral} (h : parts c = .ok (l, c')) :
    ∃ n : Number, l = ofGrammar n ∧ c.Passes n.bytes c' ∧ c'.Stops l.goesOn := by
  simp only [parts] at h
  generalize hs : readSign c = found at h
  obtain ⟨negative, c₁⟩ := found
  cases hw : readWhole c.pos c₁ with
  | error fault => simp [hw, bind, Except.bind] at h
  | ok found =>
  obtain ⟨whole, c₂⟩ := found
  cases hf : readFraction c₂ with
  | error fault => simp [hw, hf, bind, Except.bind] at h
  | ok found =>
  obtain ⟨fraction, c₃⟩ := found
  cases he : readExponent c₃ with
  | error fault => simp [hw, hf, he, bind, Except.bind] at h
  | ok found =>
  obtain ⟨exponent, c₄⟩ := found
  simp only [hw, hf, he, bind, Except.bind, pure, Except.pure, Except.ok.injEq, Prod.mk.injEq] at h
  obtain ⟨rfl, rfl⟩ := h
  obtain ⟨ps, -⟩ := readSign_eq_iff.1 hs
  obtain ⟨pw, whole_ok, sw⟩ := readWhole_eq_ok_iff.1 hw
  obtain ⟨pf, fraction_ok, sf⟩ := readFraction_eq_ok_iff.1 hf
  obtain ⟨e, rfl, pe, se⟩ := readExponent_eq_ok_iff.1 he
  refine ⟨⟨negative, whole, fraction, e, whole_ok, fraction_ok⟩, rfl,
    (ps.trans pw).trans (pf.trans pe), fun b hb => ?_⟩
  have hexponent := se b hb
  cases e with
  | some e => exact hexponent
  | none =>
    -- The parts that are not there leave the cursor where it is.
    obtain rfl := Cursor.passes_nil.1 pe
    have hfraction := sf b hb
    cases fraction with
    | some digits => exact Bool.or_eq_false_iff.2 ⟨hexponent, hfraction⟩
    | none =>
      obtain rfl := Cursor.passes_nil.1 pf
      have hwhole : (whole != [zero] && isDigit b) = false := by
        by_cases hz : whole = [zero]
        · simp [hz]
        · rw [sw hz b hb, Bool.and_false]
      exact Bool.or_eq_false_iff.2 ⟨hexponent, Bool.or_eq_false_iff.2 ⟨hfraction, hwhole⟩⟩

/-- A literal is read whole, where it does not go on with the byte that comes next. -/
theorem parts_of_passes {n : Number} (h : c.Passes n.bytes c')
    (hs : c'.Stops (ofGrammar n).goesOn) : parts c = .ok (ofGrammar n, c') := by
  obtain ⟨c₂, h₂, h₄⟩ := Cursor.passes_append.1 h
  obtain ⟨c₁, ps, pw⟩ := Cursor.passes_append.1 h₂
  obtain ⟨c₃, pf, pe⟩ := Cursor.passes_append.1 h₄
  have hexponent : c'.Stops fun b => if n.exponent.isSome then isDigit b else isExponentLetter b := by
    refine hs.mono fun b hb => ?_
    cases he : n.exponent with
    | none => simp_all [goesOn, ofGrammar]
    | some e => simp_all [goesOn, ofGrammar]
  -- Each part ends where the next one starts, or behind the literal.
  have hfraction : c₃.Stops fun b => if n.fraction.isSome then isDigit b else b == point := by
    cases he : n.exponent with
    | some e =>
      rw [he] at pe
      refine Cursor.stops_of_peek (pe.peek (List.cons_ne_nil e.letter _)) ?_
      rcases e.letter_mem with h | h <;> rw [h] <;> split <;> rfl
    | none =>
      rw [he] at pe
      obtain rfl := Cursor.passes_nil.1 pe
      refine hs.mono fun b hb => ?_
      cases hf : n.fraction with
      | none => simp_all [goesOn, ofGrammar]
      | some digits => simp_all [goesOn, ofGrammar]
  have hwhole (hz : n.whole ≠ [zero]) : c₂.Stops isDigit := by
    cases hf : n.fraction with
    | some digits =>
      rw [hf] at pf
      exact Cursor.stops_of_peek (pf.peek (List.cons_ne_nil point _)) rfl
    | none =>
      rw [hf] at pf
      obtain rfl := Cursor.passes_nil.1 pf
      cases he : n.exponent with
      | some e =>
        rw [he] at pe
        refine Cursor.stops_of_peek (pe.peek (List.cons_ne_nil e.letter _)) ?_
        rcases e.letter_mem with h | h <;> rw [h] <;> rfl
      | none =>
        rw [he] at pe
        obtain rfl := Cursor.passes_nil.1 pe
        refine hs.mono fun b hb => ?_
        simp_all [goesOn, ofGrammar]
  have s₁ : c₁.Stops (· == minus) := by
    obtain ⟨hne, hall, -⟩ := Digits.isCanonical_iff.1 n.whole_ok
    exact stops_of_digits pw ⟨hne, hall⟩ fun b hb => beq_false_of_ne (by rintro rfl; cases hb)
  have rsign := readSign_eq_iff.2 ⟨ps, fun _ => s₁⟩
  have rwhole : readWhole c.pos c₁ = .ok (n.whole, c₂) :=
    readWhole_eq_ok_iff.2 ⟨pw, n.whole_ok, hwhole⟩
  have rfraction : readFraction c₂ = .ok (n.fraction, c₃) :=
    readFraction_eq_ok_iff.2 ⟨pf, n.fraction_ok, hfraction⟩
  have rexponent : readExponent c₃ = .ok (n.exponent.map (·.value exponentSize), c') :=
    readExponent_eq_ok_iff.2 ⟨n.exponent, rfl, pe, hexponent⟩
  simp only [parts, rsign, rwhole, rfraction, rexponent, bind, Except.bind]
  rfl

/-- A literal is known by its bytes. -/
theorem ofGrammar_congr {n m : Number} (h : n.bytes = m.bytes) : ofGrammar n = ofGrammar m := by
  have hread (k : Number) : parts ⟨0, k.bytes⟩ = .ok (ofGrammar k, ⟨k.bytes.length, []⟩) :=
    parts_of_passes ⟨(List.append_nil _).symm, (Nat.zero_add _).symm⟩ fun _ hb => nomatch hb
  have hn := hread n
  rw [h, hread m] at hn
  exact (congrArg Prod.fst (Except.ok.inj hn)).symm

/-- An integer outside of 64 bits is spelled by its own literal. -/
theorem ofInt_integer {n : Number} (h : n.isInteger = true) (out : fitsInt64 n.integer = false) :
    Digits.ofInt n.integer = n.bytes := by
  have hpos : 0 < Digits.value n.whole := by
    refine Nat.pos_of_ne_zero fun h0 => ?_
    rw [Number.integer, h0] at out
    split at out <;> cases out
  simp only [Number.isInteger, Bool.and_eq_true, Option.isNone_iff_eq_none] at h
  simp only [Number.bytes, Number.integer, Digits.ofInt, h.1, h.2, Option.map_none,
    Option.getD_none, List.append_nil]
  by_cases hn : n.negative = true
  · simp only [hn, ite_true]
    rw [if_pos (by omega), Int.natAbs_neg, Int.natAbs_natCast, Digits.ofNat_value n.whole_ok]
    rfl
  · simp only [hn]
    rw [if_neg Bool.false_ne_true, if_neg Bool.false_ne_true, if_neg (by omega),
      Int.natAbs_natCast, Digits.ofNat_value n.whole_ok]
    rfl

theorem value?_ofGrammar_of_isInteger {n : Number} (h : n.isInteger = true) :
    (ofGrammar n).value? = some (Value.ofInt n.integer) := by
  have hi : ((ofGrammar n).fraction.isNone && (ofGrammar n).exponent.isNone) = true := by
    simpa only [ofGrammar, Option.isNone_map, Number.isInteger] using h
  rw [value?, if_pos hi]
  rfl

theorem value?_ofGrammar_of_not_isInteger {n : Number} (h : n.isInteger = false) :
    (ofGrammar n).value? =
      if ((ofGrammar n).decimal.toBinary64 n.negative).isFinite then
        some (.float ((ofGrammar n).decimal.toBinary64 n.negative)) else none := by
  have hi : ¬((ofGrammar n).fraction.isNone && (ofGrammar n).exponent.isNone) = true := by
    simpa only [ofGrammar, Option.isNone_map, Number.isInteger, Bool.not_eq_true] using h
  rw [value?, if_neg hi]
  rfl

theorem value_decimal (n : Number) : (ofGrammar n).decimal.value = n.size exponentSize := rfl

/-- The value of a literal as the reader gives it is the value of the literal. -/
theorem value?_ofGrammar_eq_some_iff {n : Number} {v : Value} :
    (ofGrammar n).value? = some v ↔ n.Denotes exponentSize v := by
  cases h : n.isInteger with
  | true =>
    rw [value?_ofGrammar_of_isInteger h, Option.some.injEq]
    constructor
    · rintro rfl
      cases out : fitsInt64 n.integer with
      | true =>
        have hk : Value.ofInt n.integer = .int (Int64.ofInt n.integer) := if_pos out
        rw [hk]
        exact .int h (Value.ofInt_eq_int_iff.1 hk)
      | false =>
        have hk : Value.ofInt n.integer = .bigInt ⟨n.integer⟩ := if_neg (by simp [out])
        rw [hk]
        exact .bigInt h out (ofInt_integer h out)
    · rintro (⟨-, hk⟩ | ⟨-, out, hk⟩ | ⟨hf⟩)
      · exact Value.ofInt_eq_int_iff.2 hk
      · rw [← ofInt_integer h out] at hk
        exact Value.ofInt_eq_bigInt_iff.2 ⟨out, Digits.ofInt_injective hk⟩
      · rw [hf] at h
        cases h
  | false =>
    have hlt : (ofGrammar n).decimal.toMagnitude < Binary64.signBit :=
      Nat.lt_of_le_of_lt (ofGrammar n).decimal.isNearest_toMagnitude.1 (by decide)
    have hm := Binary64.magnitude_ofMagnitude n.negative hlt
    have hs := Binary64.isNegative_ofMagnitude n.negative hlt
    rw [value?_ofGrammar_of_not_isInteger h]
    constructor
    · intro hv
      split at hv
      · next fin =>
        cases hv
        refine .float h hs ?_ fin
        rw [Decimal.toBinary64, hm, ← value_decimal]
        exact (ofGrammar n).decimal.isNearest_toMagnitude
      · cases hv
    · rintro (⟨hi, -⟩ | ⟨hi, -, -⟩ | ⟨-, hx, near, fin⟩)
      · rw [hi] at h
        cases h
      · rw [hi] at h
        cases h
      · next x =>
        have heq : (ofGrammar n).decimal.toBinary64 n.negative = x := by
          refine Binary64.eq_of_sign_magnitude (hs.trans hx.symm) (hm.trans ?_)
          exact Decimal.toMagnitude_eq_of_isNearest near
        rw [heq, if_pos fin]

/-! ## Reading -/

/-- **The reader takes the literals that go on no further, and gives the value of each.** -/
theorem read_eq_ok_iff {v : Value} :
    read c = .ok v c' ↔ ∃ n : Number, c.Passes n.bytes c' ∧ n.Denotes exponentSize v ∧
      c'.Stops (ofGrammar n).goesOn := by
  simp only [read]
  constructor
  · intro h
    split at h
    · cases h
    · next l m hparts =>
      obtain ⟨n, rfl, hp, hs⟩ := exists_of_parts hparts
      split at h
      · next hv =>
        cases h
        exact ⟨n, hp, value?_ofGrammar_eq_some_iff.1 hv, hs⟩
      · cases h
  · rintro ⟨n, hp, hv, hs⟩
    simp only [parts_of_passes hp hs, value?_ofGrammar_eq_some_iff.2 hv]

end JsonCodec.NumberLiteral
