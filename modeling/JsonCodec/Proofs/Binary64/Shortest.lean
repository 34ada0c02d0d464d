/-
A finite binary64 number reads back from its shortest decimal (`toMagnitude_shortest`): whatever is
cut from its exact decimal is checked to read back, and the exact decimal reads back because a
magnitude is nearest to its own value.
-/
import JsonCodec.Proofs.Binary64.Reading

namespace JsonCodec.Binary64

open Digits (tenPow)

/-! ## Sign and magnitude -/

theorem magnitude_lt (x : Binary64) : x.magnitude < signBit := Nat.mod_lt _ (by decide)

theorem toNat_ofMagnitude {m : Nat} (negative : Bool) (h : m < signBit) :
    (ofMagnitude negative m).bits.toNat = if negative then signBit + m else m := by
  have hs : signBit = 2 ^ 63 := rfl
  simp only [ofMagnitude, UInt64.toNat_ofNat']
  exact Nat.mod_eq_of_lt (by split <;> omega)

theorem magnitude_ofMagnitude {m : Nat} (negative : Bool) (h : m < signBit) :
    (ofMagnitude negative m).magnitude = m := by
  rw [magnitude, toNat_ofMagnitude negative h]
  cases negative
  · exact Nat.mod_eq_of_lt h
  · exact (Nat.add_mod_left ..).trans (Nat.mod_eq_of_lt h)

theorem isNegative_ofMagnitude {m : Nat} (negative : Bool) (h : m < signBit) :
    (ofMagnitude negative m).isNegative = negative := by
  rw [isNegative, toNat_ofMagnitude negative h]
  cases negative <;> simp [h]

/-- A number is its sign and its magnitude. -/
theorem ofMagnitude_magnitude (x : Binary64) : ofMagnitude x.isNegative x.magnitude = x := by
  have hs : signBit = 2 ^ 63 := rfl
  have hlt := x.bits.toNat_lt
  have hb : (ofMagnitude x.isNegative x.magnitude).bits = x.bits := by
    rw [← UInt64.toNat_inj, toNat_ofMagnitude _ x.magnitude_lt, isNegative, magnitude]
    simp only [hs, decide_eq_true_eq]
    split <;> omega
  cases x
  exact congrArg Binary64.mk hb

theorem eq_of_sign_magnitude {x y : Binary64} (hs : x.isNegative = y.isNegative)
    (hm : x.magnitude = y.magnitude) : x = y := by
  rw [← ofMagnitude_magnitude x, hs, hm, ofMagnitude_magnitude]

/-! ## The exact value -/

theorem units_magnitude (x : Binary64) :
    units x.magnitude = x.significand * 2 ^ (max 1 (x.magnitude / hiddenBit) - 1) := by
  unfold units significand
  split
  · next h => rw [Nat.div_eq_of_lt h, Nat.max_eq_left (Nat.zero_le 1), Nat.sub_self, Nat.pow_zero,
      Nat.mul_one]
  · next h => rw [Nat.max_eq_right (Nat.div_pos (Nat.le_of_not_lt h) (by decide))]

theorem magnitudeValue_magnitude (x : Binary64) :
    magnitudeValue x.magnitude = x.significand * 2 ^ x.exponent := by
  rw [magnitudeValue, units_magnitude, exponent, unitsPerOne, Nat.cast_mul, Nat.cast_pow,
    Nat.cast_pow, Nat.cast_ofNat, ← zpow_natCast, ← zpow_natCast, mul_div_assoc,
    ← zpow_sub₀ two_ne_zero]
  congr 2
  omega

/-- **The exact decimal is the value of the magnitude.** -/
theorem value_toDecimal (x : Binary64) : x.toDecimal.value = magnitudeValue x.magnitude := by
  rw [magnitudeValue_magnitude, toDecimal]
  split
  · next h =>
    obtain ⟨n, hn⟩ := Int.eq_ofNat_of_zero_le h
    rw [Decimal.value, hn, Int.toNat_natCast, Nat.shiftLeft_eq, zpow_zero, mul_one, zpow_natCast]
    push_cast
    rfl
  · next h =>
    obtain ⟨n, hn⟩ : ∃ n : Nat, x.exponent = -n := ⟨(-x.exponent).toNat, by omega⟩
    have ten : (10 : ℚ) ^ n = 2 ^ n * 5 ^ n := by rw [← mul_pow]; norm_num
    have five : (5 : ℚ) ^ n ≠ 0 := by positivity
    rw [Decimal.value, hn, neg_neg, Int.toNat_natCast, zpow_neg, zpow_neg, zpow_natCast,
      zpow_natCast, ten, Nat.cast_mul, Nat.pow_eq, Nat.cast_pow, Nat.cast_ofNat]
    field_simp

/-! ## The shortest decimal reads back -/

/-- A neighbour that is taken reads as the magnitude. -/
theorem toMagnitude_of_neighbour? {d e : Decimal} {m k : Nat} (h : d.neighbour? m k = some e) :
    e.toMagnitude = m := by
  simp only [Decimal.neighbour?] at h
  split at h
  · next below =>
    split at h
    · next above =>
      cases h
      exact above.1
    · cases h
      exact below
  · split at h
    · next above =>
      cases h
      exact above
    · cases h

theorem toMagnitude_shortestWithin {d : Decimal} {m : Nat} (h : d.toMagnitude = m) (k : Nat) :
    (d.shortestWithin m k).toMagnitude = m := by
  induction k with
  | zero => exact h
  | succ k ih =>
    rw [Decimal.shortestWithin]
    cases hn : d.neighbour? m (k + 1) with
    | none => exact ih
    | some e => exact toMagnitude_of_neighbour? hn

/-- **The shortest decimal reads back as the number.** -/
theorem toMagnitude_shortest {x : Binary64} (h : x.isFinite = true) :
    x.shortest.toMagnitude = x.magnitude := by
  refine toMagnitude_shortestWithin (Decimal.toMagnitude_eq_of_isNearest ?_) _
  rw [value_toDecimal]
  exact isNearest_magnitudeValue (Nat.le_of_lt (of_decide_eq_true h))

end JsonCodec.Binary64
