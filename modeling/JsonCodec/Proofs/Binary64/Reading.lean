/-
Reading a decimal into binary64 rounds its value to the nearest magnitude, whichever way the value
is split into coefficient and exponent (`Decimal.isNearest_toMagnitude`). The shortcuts of
`toMagnitude` for values far out are those of `isNearest_zero` and `isNearest_infinity`.
-/
import JsonCodec.Binary64.Decimal
import JsonCodec.Proofs.Binary64.Rounding

namespace JsonCodec

open Digits (tenPow)

namespace Binary64

theorem unitsPerOne_lt : 2 * unitsPerOne < tenPow 324 := by decide +kernel

theorem units_infinityMagnitude_le : units infinityMagnitude ≤ tenPow 309 * unitsPerOne := by
  decide +kernel

/-- Below a half of the least positive number all rounds to zero. -/
theorem isNearest_zero {q : ℚ} (h0 : 0 ≤ q) (h : q * tenPow 324 < 1) : IsNearest q 0 := by
  have hs : (2 * unitsPerOne : ℚ) < tenPow 324 := by exact_mod_cast unitsPerOne_lt
  refine isNearest_iff.2 ⟨Nat.zero_le _, fun k hk => absurd hk (Nat.not_lt_zero k), fun k hk _ => ?_⟩
  have h1 : (1 : ℚ) ≤ units k := by
    exact_mod_cast Nat.lt_of_le_of_lt (Nat.zero_le (units 0)) (units_strictMono hk)
  have h2 : (0 : ℚ) ≤ units 0 := Nat.cast_nonneg _
  left
  calc 2 * inUnits q
    _ = q * (2 * unitsPerOne) := by rw [inUnits]; ring
    _ ≤ q * tenPow 324 := by gcongr
    _ < units 0 + units k := by linarith

/-- From the value past the largest finite number on all rounds to infinity. -/
theorem isNearest_infinity {q : ℚ} (h : (tenPow 309 : ℚ) ≤ q) : IsNearest q infinityMagnitude := by
  have hs : (units infinityMagnitude : ℚ) ≤ inUnits q :=
    calc (units infinityMagnitude : ℚ)
      _ ≤ tenPow 309 * unitsPerOne := by exact_mod_cast units_infinityMagnitude_le
      _ ≤ q * unitsPerOne := by gcongr
  refine isNearest_iff.2 ⟨Nat.le_refl _, fun k hk => .inl ?_, fun k hk hk' => by omega⟩
  have : (units k : ℚ) < units infinityMagnitude := by exact_mod_cast units_strictMono hk
  linarith

end Binary64

namespace Decimal

open Binary64

/-- The number that a decimal is. -/
def value (d : Decimal) : ℚ := d.coefficient * 10 ^ d.exponent

theorem cast_tenPow (k : Nat) : (tenPow k : ℚ) = 10 ^ k := Nat.cast_pow 10 k

theorem value_eq_div (d : Decimal) :
    d.value = (d.coefficient * tenPow d.exponent.toNat : Nat) / (tenPow (-d.exponent).toNat : Nat) := by
  rw [value, zpow_eq_div (by norm_num), ← mul_div_assoc, Nat.cast_mul, cast_tenPow, cast_tenPow]

/-- **Reading a decimal is rounding it to the nearest.** -/
theorem isNearest_toMagnitude (d : Decimal) : IsNearest d.value d.toMagnitude := by
  have ten : (10 : ℚ) ≠ 0 := by norm_num
  unfold toMagnitude
  split
  · next h =>
    rcases h with h | h
    · rw [value, h, Nat.cast_zero, zero_mul]
      exact isNearest_zero le_rfl (by rw [zero_mul]; exact one_pos)
    · refine isNearest_zero (by unfold value; positivity) ?_
      -- The coefficient has at most `log2 + 1` digits.
      have hc : (d.coefficient : ℚ) < 10 ^ (d.coefficient.log2 + 1) := by
        exact_mod_cast Nat.lt_of_lt_of_le Nat.lt_log2_self (Nat.pow_le_pow_left (by decide) _)
      calc d.value * tenPow 324
        _ < 10 ^ (d.coefficient.log2 + 1) * 10 ^ d.exponent * tenPow 324 := by
          have : (0 : ℚ) < tenPow 324 := by exact_mod_cast Digits.tenPow_pos 324
          unfold value
          gcongr
        _ = 10 ^ (((d.coefficient.log2 + 1 : Nat) : Int) + d.exponent + (324 : Nat)) := by
          rw [cast_tenPow, zpow_add₀ ten, zpow_add₀ ten, zpow_natCast, zpow_natCast]
        _ ≤ 1 := zpow_le_one_of_nonpos₀ (by norm_num) (by push_cast; omega)
  split
  · next h h' =>
    refine isNearest_infinity ?_
    have hc : (1 : ℚ) ≤ d.coefficient := by exact_mod_cast Nat.pos_of_ne_zero (by tauto)
    calc (tenPow 309 : ℚ)
      _ = 1 * 10 ^ ((309 : Nat) : Int) := by rw [cast_tenPow, one_mul, zpow_natCast]
      _ ≤ d.coefficient * 10 ^ d.exponent := by
        gcongr
        · norm_num
        · exact_mod_cast h'
  · rw [value_eq_div]
    exact isNearest_roundRatio _ (Digits.tenPow_pos _)

/-- A decimal is read by its value alone. -/
theorem toMagnitude_eq_of_isNearest {d : Decimal} {m : Nat} (h : IsNearest d.value m) :
    d.toMagnitude = m := d.isNearest_toMagnitude.unique h

end Decimal

end JsonCodec
