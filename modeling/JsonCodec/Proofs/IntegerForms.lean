/-
Each integer has one text and one value (`Codec.integer_forms`).

The literal in a document, `BigInt.parse?`, `Value.ofInt` and the text that is written are four ways
from texts to integers or back, and none goes by another. So each is set beside the canonical text of
an integer (`Digits.Spells`). The one literal that is no canonical text is a zero behind a minus sign.
-/
import JsonCodec.Proofs.Equality
import JsonCodec.Proofs.Image

namespace JsonCodec

open Ascii Grammar NumberLiteral

namespace Digits

/-- The canonical text of an integer: digits without a zero in front, behind a minus sign just if the
integer is below zero. -/
inductive Spells : Bytes → Int → Prop
  | nonneg {digits : Bytes} (h : isCanonical digits = true) : Spells digits (value digits)
  | neg {digits : Bytes} (h : isCanonical digits = true) (hpos : 0 < value digits) :
    Spells (minus :: digits) (-value digits)

theorem spells_ofInt (z : Int) : Spells (ofInt z) z := by
  have hcanonical := (isCanonical_ofNat z.natAbs).1
  have hvalue := value_ofNat z.natAbs
  unfold ofInt
  by_cases hz : z < 0
  · rw [if_pos hz]
    have hneg := Spells.neg hcanonical (by omega)
    rwa [hvalue, show -(z.natAbs : Int) = z by omega] at hneg
  · rw [if_neg hz]
    have hnonneg := Spells.nonneg hcanonical
    rwa [hvalue, show (z.natAbs : Int) = z by omega] at hnonneg

/-- **An integer has one canonical text.** -/
theorem spells_iff {text : Bytes} {z : Int} : Spells text z ↔ text = ofInt z := by
  constructor
  · intro h
    cases h with
    | nonneg h => rw [ofInt, if_neg (by omega), Int.natAbs_natCast, ofNat_value h]
    | neg h hpos => rw [ofInt, if_pos (by omega), Int.natAbs_neg, Int.natAbs_natCast, ofNat_value h]
  · intro h
    rw [h]
    exact spells_ofInt z

/-- Digits do not begin with a minus sign. -/
theorem head?_ne_minus {digits : Bytes} (h : isCanonical digits = true) :
    digits.head? ≠ some minus := by
  intro hm
  have hdigit := (isCanonical_iff.1 h).2.1 minus (List.mem_of_mem_head? hm)
  exact absurd hdigit (by decide)

end Digits

namespace BigInt

variable {text : Bytes} {z : Int} {n : BigInt}

theorem unsigned_of_spells (h : Digits.Spells text z) :
    Digits.isCanonical (unsigned text) = true ∧ spelled text = z := by
  cases h with
  | nonneg h => simp only [unsigned, spelled, if_neg (Digits.head?_ne_minus h), h, true_and]
  | neg h hpos => simp only [unsigned, spelled, List.head?_cons, if_true, List.drop_one,
      List.tail_cons, h, true_and]

/-- What spells an integer other than zero is its canonical text if its digits are canonical. -/
theorem spells_of_unsigned (h : Digits.isCanonical (unsigned text) = true) (hz : spelled text ≠ 0) :
    Digits.Spells text (spelled text) := by
  simp only [unsigned, spelled] at h hz ⊢
  by_cases hm : text.head? = some minus
  · obtain ⟨digits, rfl⟩ := List.head?_eq_some_iff.1 hm
    simp only [List.head?_cons, if_true, List.drop_one, List.tail_cons] at h hz ⊢
    exact .neg h (by omega)
  · simp only [if_neg hm] at h ⊢
    exact .nonneg h

/-- **The texts that are read as large integers are the canonical ones of integers that 64 bits do
not hold.** -/
theorem parse?_eq_some_iff :
    parse? text = some n ↔ Digits.Spells text n.value ∧ fitsInt64 n.value = false := by
  unfold parse?
  constructor
  · intro h
    split at h
    · next hboth =>
      cases h
      simp only [Bool.and_eq_true, Bool.not_eq_true'] at hboth
      obtain ⟨hcanonical, hout⟩ := hboth
      refine ⟨spells_of_unsigned hcanonical fun hz => ?_, hout⟩
      -- Zero is held in 64 bits, also behind a minus sign.
      rw [hz] at hout
      cases hout
    · cases h
  · intro h
    obtain ⟨hspells, hout⟩ := h
    obtain ⟨hcanonical, hspelled⟩ := unsigned_of_spells hspells
    simp only [hcanonical, hspelled, hout, Bool.not_false, Bool.and_true, if_true]

end BigInt

namespace Value

/-- The value of an integer with its canonical text: in 64 bits if these hold it, and else whole. -/
def IsIntegerOf (z : Int) (text : Bytes) (v : Value) : Prop :=
  if -2 ^ 63 ≤ z ∧ z < 2 ^ 63 then ∃ k : Int64, k.toInt = z ∧ v = .int k
  else ∃ n : BigInt, n.text = text ∧ v = .bigInt n

theorem isIntegerOf_ofInt (z : Int) : IsIntegerOf z (Digits.ofInt z) (ofInt z) := by
  unfold IsIntegerOf
  split
  · next h => exact ⟨Int64.ofInt z, Int64.toInt_ofInt_of_le h.1 h.2, if_pos (fitsInt64_iff.2 h)⟩
  · next h => exact ⟨⟨z⟩, rfl, if_neg fun hfits => h (fitsInt64_iff.1 hfits)⟩

/-- No float and no container: such a value is equal to itself alone. -/
theorem isAtom_ofInt (z : Int) : (ofInt z).isAtom = true := by
  unfold ofInt
  split <;> rfl

theorem ofInt_injective {y z : Int} (h : ofInt y = ofInt z) : y = z := by
  rcases exists_ofInt z with ⟨k, hk, hz⟩ | ⟨n, hn, -, hz⟩
  · rw [← hk, ofInt_eq_int_iff.1 (h.trans hz)]
  · rw [← hn, (ofInt_eq_bigInt_iff.1 (h.trans hz)).2]

theorem beq_ofInt_iff {y z : Int} : (ofInt y == ofInt z) = true ↔ y = z := by
  rw [beq_iff_eq_of_isAtom (isAtom_ofInt y)]
  exact ⟨ofInt_injective, congrArg ofInt⟩

end Value

/-- **An integer literal is read as its integer**, whether it is the canonical text or not. -/
theorem Document.decodeAnySize_of_isInteger {n : Number} (h : n.isInteger = true) :
    decodeAnySize n.bytes = .ok (.ofInt n.integer) := by
  have hdenotes : n.Denotes exponentSize (.ofInt n.integer) :=
    value?_ofGrammar_eq_some_iff.1 (value?_ofGrammar_of_isInteger h)
  refine decodeAnySize_eq_ok_iff.2 ⟨fun hnil => ?_, .of_denotes (.number n hdenotes)⟩
  obtain ⟨hne, -⟩ := Digits.isCanonical_iff.1 n.whole_ok
  simp only [Number.bytes, List.append_eq_nil_iff] at hnil
  exact hne hnil.1.2

namespace Codec

/-- An integer is written as its digits. -/
theorem encode_ofInt {mask : UInt32} {o : Options} (hm : Options.ofMask? mask = .ok o)
    (hs : o.strictInteger = false) (z : Int) :
    encode mask (.ofInt z) = .ok (Encoder.document o (Digits.ofInt z)) := by
  let e : Encoder Unit := { options := o }
  have htext : e.text Encoder.budget {} (.ofInt z) = TextM.lift (.ok (Digits.ofInt z)) := by
    rcases Value.exists_ofInt z with ⟨k, hk, hv⟩ | ⟨n, hn, -, hv⟩
    · have hint : e.text Encoder.budget {} (.int k) = TextM.lift (Scalar.int o k) := rfl
      simp only [hv, hint, Scalar.int, hs, Bool.false_and, Scalar.int64, hk, Bool.false_eq_true,
        if_false]
    · have hint : e.text Encoder.budget {} (.bigInt n) = TextM.lift (Scalar.bigInt o n) := rfl
      simp only [hv, hint, Scalar.bigInt, hs, BigInt.text, hn, Bool.false_eq_true, if_false]
  rw [encode, encodeWith_eq hm, htext]
  rfl

/-- **Each integer has one text and one value. The text is read as the value, and the value is written
as the text; `Value.ofInt` makes the same value, and the texts that `BigInt.parse?` takes are those of
the integers that 64 bits do not hold. Literals are read as equal values just if they denote the same
integer.** That is said of a reader without a limit on the size of its input, so it is true of texts of
any length; the default one (`Document.decode`) reads the same within its input limit of 2 GiB, and
refuses what is longer unread. -/
theorem integer_forms :
    (∀ input, input.length ≤ Limits.maxInputSize →
      Document.decode input = Document.decodeAnySize input) ∧
    (∀ z, ∃! text, Digits.Spells text z) ∧
    (∀ z text, Digits.Spells text z → ∃ v, Value.IsIntegerOf z text v ∧
      Document.decodeAnySize text = .ok v ∧ Value.ofInt z = v ∧
      ∀ mask o, Options.ofMask? mask = .ok o → o.strictInteger = false →
        encode mask v = .ok (text ++ if o.appendNewline then [lineFeed] else [])) ∧
    (∀ text, (∃ n, BigInt.parse? text = some n) ↔
      ∃ z, Digits.Spells text z ∧ ¬(-2 ^ 63 ≤ z ∧ z < 2 ^ 63)) ∧
    ∀ m n : Number, m.isInteger = true → n.isInteger = true →
      ∃ v w, Document.decodeAnySize m.bytes = .ok v ∧ Document.decodeAnySize n.bytes = .ok w ∧
        ((v == w) = true ↔ m.integer = n.integer) := by
  refine ⟨fun _ => Document.decode_eq_decodeAnySize, fun z => ?_, fun z text h => ?_, fun text => ?_,
    fun m n hm hn => ?_⟩
  · exact ⟨Digits.ofInt z, Digits.spells_ofInt z, fun _ => Digits.spells_iff.1⟩
  · obtain rfl := Digits.spells_iff.1 h
    refine ⟨.ofInt z, Value.isIntegerOf_ofInt z, ?_, rfl, fun mask o ho hs => ?_⟩
    · have hread := Document.decodeAnySize_of_isInteger (n := Number.ofInt z) rfl
      rwa [Number.bytes_ofInt, Number.integer_ofInt] at hread
    · rw [encode_ofInt ho hs, Encoder.document]
      split <;> simp
  · constructor
    · intro hparse
      obtain ⟨n, hn⟩ := hparse
      obtain ⟨hspells, hout⟩ := BigInt.parse?_eq_some_iff.1 hn
      exact ⟨n.value, hspells, fun hfits => by rw [fitsInt64_iff.2 hfits] at hout; cases hout⟩
    · intro hspells
      obtain ⟨z, hz, hout⟩ := hspells
      have hfits : fitsInt64 z = false := Bool.eq_false_iff.2 fun h => hout (fitsInt64_iff.1 h)
      exact ⟨⟨z⟩, BigInt.parse?_eq_some_iff.2 ⟨hz, hfits⟩⟩
  · exact ⟨_, _, Document.decodeAnySize_of_isInteger hm, Document.decodeAnySize_of_isInteger hn,
      Value.beq_ofInt_iff⟩

end Codec

end JsonCodec
