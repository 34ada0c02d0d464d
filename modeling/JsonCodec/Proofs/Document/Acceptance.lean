/-
Which documents are read, and as which values (`decodeWithin_eq_ok_iff_spaced`): those of the
grammar within the bounds, each as the value that the grammar gives it.

One thing in that value is not arithmetic: an exponent takes no digits once it has come to
`NumberLiteral.exponentLimit`. A literal of tens of thousands of digits can be so read as another
number than it spells (`longExponent`).
-/
import JsonCodec.Proofs.Document.Exponent
import JsonCodec.Proofs.Document.Reading

namespace JsonCodec.Document

open Ascii Grammar NumberLiteral

/-- **A document is read as `v` just if it is not empty, is within the bounds, and has the value
`v` in the grammar.** -/
theorem decodeWithin_eq_ok_iff_spaced (bounds : Bounds) (input : Bytes) (v : Value) :
    decodeWithin bounds input = .ok v ↔ input ≠ [] ∧ input.length ≤ bounds.maxInputSize ∧
      Spaced exponentSize bounds.maxDepth input v := by
  rw [decodeWithin_eq_ok_iff, read_eq_ok_iff]

/-! ## An exponent that is not read to its end -/

/-- The digits of `10 ^ k`. -/
def powerDigits (k : Nat) : Bytes := 0x31 :: List.replicate k zero

theorem value_powerDigits (k : Nat) : Digits.value (powerDigits k) = Digits.tenPow k := by
  induction k with
  | zero => decide
  | succ k ih =>
    rw [powerDigits, List.replicate_succ', ← List.cons_append, Digits.value_append_singleton]
    rw [powerDigits] at ih
    rw [ih, Digits.tenPow_succ]
    rfl

theorem isCanonical_powerDigits (k : Nat) : Digits.isCanonical (powerDigits k) = true := by
  refine Digits.isCanonical_iff.2 ⟨List.cons_ne_nil _ _, ?_, fun h => ?_⟩
  · refine List.forall_mem_cons.2 ⟨rfl, fun b hb => ?_⟩
    rw [List.eq_of_mem_replicate hb]
    rfl
  · cases h

/-- The digits of 655360. The last is not read: without it the exponent is at the limit. -/
def cutDigits : Bytes := [0x36, 0x35, 0x35, 0x33, 0x36, 0x30]

theorem isDigits_cutDigits : IsDigits cutDigits := by
  have hall : cutDigits.all isDigit = true := by decide
  exact ⟨List.cons_ne_nil _ _, List.all_eq_true.1 hall⟩

/-- The literal `10...0e-655360`, with 65536 zeros. -/
def longExponent : Number where
  negative := false
  whole := powerDigits exponentLimit
  fraction := none
  exponent := some (.ofDigits true cutDigits isDigits_cutDigits)
  whole_ok := isCanonical_powerDigits exponentLimit
  fraction_ok := isDigits_of_mem_none

theorem size_longExponent (size : Bytes → Nat) :
    longExponent.size size = 10 ^ exponentLimit * (10 : ℚ) ^ (-(size cutDigits : Int)) := by
  have hw : longExponent.whole ++ longExponent.fraction.getD [] = powerDigits exponentLimit :=
    List.append_nil _
  rw [Number.size, hw, value_powerDigits, Decimal.cast_tenPow]
  congr 2
  simp [longExponent, Exponent.value, Exponent.ofDigits]

theorem bytes_longExponent :
    longExponent.bytes = powerDigits exponentLimit ++ (letterE :: minus :: cutDigits) := by
  simp only [Number.bytes, longExponent, Bool.false_eq_true, ite_false, List.nil_append,
    Option.map_none, Option.getD_none, Option.map_some, Option.getD_some, Exponent.bytes,
    Exponent.ofDigits, ite_true, Option.toList_some, List.singleton_append]

theorem length_longExponent : longExponent.bytes.length = 65545 := by
  rw [bytes_longExponent, List.length_append, powerDigits, List.length_cons, List.length_replicate]
  rfl

theorem spaced_longExponent {size : Bytes → Nat} {m : Nat} (n : Nat)
    (near : Binary64.IsNearest (longExponent.size size) m) (h : m < Binary64.infinityMagnitude) :
    Spaced size n longExponent.bytes (.float (Binary64.ofMagnitude false m)) := by
  have hm : m < Binary64.signBit := Nat.lt_trans h (by decide)
  have hv : longExponent.Denotes size (.float (Binary64.ofMagnitude false m)) := by
    refine .float rfl (Binary64.isNegative_ofMagnitude false hm) ?_ ?_
    · rwa [Binary64.magnitude_ofMagnitude false hm]
    · rw [Binary64.isFinite, Binary64.magnitude_ofMagnitude false hm]
      exact decide_eq_true h
  exact .of_denotes (.number longExponent hv)

/-- As a decimal number the literal is below the least positive one by far. -/
theorem isNearest_zero_longExponent :
    Binary64.IsNearest (longExponent.size Digits.value) 0 := by
  have hv : Digits.value cutDigits = 655360 := by decide
  have ten : (10 : ℚ) ≠ 0 := by norm_num
  rw [size_longExponent, hv]
  refine Binary64.isNearest_zero (by positivity) ?_
  rw [Decimal.cast_tenPow, ← zpow_natCast, ← zpow_natCast, ← zpow_add₀ ten, ← zpow_add₀ ten]
  exact zpow_lt_one_of_neg₀ (by norm_num) (by decide)

/-- As the reader takes it, it is one. -/
theorem isNearest_one_longExponent :
    Binary64.IsNearest (longExponent.size exponentSize) (1023 * Binary64.hiddenBit) := by
  have hv : exponentSize cutDigits = exponentLimit := by decide
  have hu : Binary64.units (1023 * Binary64.hiddenBit) = Binary64.unitsPerOne := by decide +kernel
  have hone : longExponent.size exponentSize =
      Binary64.magnitudeValue (1023 * Binary64.hiddenBit) := by
    rw [size_longExponent, hv, Binary64.magnitudeValue, hu, div_self Binary64.unitsPerOne_pos.ne',
      zpow_neg, zpow_natCast, mul_inv_cancel₀ (by positivity)]
  rw [hone]
  exact Binary64.isNearest_magnitudeValue (by decide)

/-- The literal spells a number that rounds to zero, and it is not read as zero: the nearest is
not what is read where an exponent is not read to its end. -/
theorem longExponent_not_read_as_nearest :
    ¬(decodeWithin {} longExponent.bytes = .ok (.float (Binary64.ofMagnitude false 0)) ↔
      longExponent.bytes ≠ [] ∧ longExponent.bytes.length ≤ Limits.maxInputSize ∧
        Spaced Digits.value Limits.maxDepth longExponent.bytes
          (.float (Binary64.ofMagnitude false 0))) := by
  have hne : longExponent.bytes ≠ [] := by
    intro h
    have hlen := length_longExponent
    rw [h] at hlen
    cases hlen
  have hsize : longExponent.bytes.length ≤ Limits.maxInputSize := by
    rw [length_longExponent]
    decide
  intro h
  have hzero := h.2 ⟨hne, hsize, spaced_longExponent _ isNearest_zero_longExponent (by decide)⟩
  have hone : decodeWithin {} longExponent.bytes =
      .ok (.float (Binary64.ofMagnitude false (1023 * Binary64.hiddenBit))) := by
    rw [decodeWithin_eq_ok_iff, read_eq_ok_iff]
    exact ⟨hne, hsize, spaced_longExponent _ isNearest_one_longExponent (by decide)⟩
  rw [hone] at hzero
  have hx := Value.float.inj (Except.ok.inj hzero)
  exact absurd (congrArg Binary64.magnitude hx) (by decide)

end JsonCodec.Document
