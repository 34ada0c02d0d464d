/-
Rounding a quotient of natural numbers finds the nearest magnitude (`isNearest_roundRatio`).

`log2Ratio` is the power of two below the quotient, so in units in the last place the quotient has
at most 53 bits before the point, and 53 unless the unit is the least there is. `divNearestEven`
then rounds to a whole number of units, which is what `isNearest_of_places` asks for.
-/
import Mathlib.Algebra.Order.Field.Power
import Mathlib.Tactic.GCongr
import Mathlib.Tactic.LinearCombination
import JsonCodec.Proofs.Binary64.Nearest

namespace JsonCodec.Binary64

/-- A power as a quotient of powers with natural exponents, one of which is zero. -/
theorem zpow_eq_div {b : ℚ} (hb : b ≠ 0) (z : Int) : b ^ z = b ^ z.toNat / b ^ (-z).toNat := by
  rw [← zpow_natCast, ← zpow_natCast, ← zpow_sub₀ hb, Int.toNat_sub_toNat_neg]

/-! ## A quotient to the nearest whole number -/

theorem divNearestEven_bounds {num den : Nat} (hd : 0 < den) :
    2 * divNearestEven num den * den ≤ 2 * num + den ∧
      2 * num ≤ (2 * divNearestEven num den + 1) * den ∧
      (2 * divNearestEven num den * den = 2 * num + den ∨
        2 * num = (2 * divNearestEven num den + 1) * den → divNearestEven num den % 2 = 0) := by
  have hm := Nat.div_add_mod num den
  have hr := Nat.mod_lt num hd
  have e (q : Nat) : 2 * q * den = 2 * (den * q) := by ring
  have e' (q : Nat) : (2 * q + 1) * den = 2 * (den * q) + den := by ring
  have e'' (q : Nat) : den * (q + 1) = den * q + den := by ring
  simp only [e, e']
  unfold divNearestEven
  dsimp only
  generalize num / den = q at hm
  generalize num % den = r at hm hr
  split
  · omega
  split
  · rw [e'']
    omega
  · rcases Nat.mod_two_eq_zero_or_one q with h | h <;> rw [h]
    · rw [Nat.add_zero]
      omega
    · rw [e'']
      omega

/-- The quotient is at most a half away, and the even one if it is a half. -/
theorem divNearestEven_spec {num den : Nat} {r : ℚ} (hd : 0 < den) (hr : r * den = num) :
    (2 * divNearestEven num den - 1 : ℚ) ≤ 2 * r ∧ 2 * r ≤ 2 * divNearestEven num den + 1 ∧
      (2 * r = 2 * divNearestEven num den - 1 ∨ 2 * r = 2 * divNearestEven num den + 1 →
        divNearestEven num den % 2 = 0) := by
  obtain ⟨h1, h2, h3⟩ := @divNearestEven_bounds num den hd
  generalize divNearestEven num den = u at h1 h2 h3
  have hd : (0 : ℚ) < den := by exact_mod_cast hd
  refine ⟨?_, ?_, ?_⟩
  · have h1 : (2 * u * den : ℚ) ≤ 2 * num + den := by exact_mod_cast h1
    rw [← hr] at h1
    nlinarith
  · have h2 : (2 * num : ℚ) ≤ (2 * u + 1) * den := by exact_mod_cast h2
    rw [← hr] at h2
    nlinarith
  · rintro (h | h)
    · have : (2 * u * den : ℚ) = 2 * num + den := by rw [← hr]; linear_combination -(den : ℚ) * h
      exact h3 (.inl (by exact_mod_cast this))
    · have : (2 * num : ℚ) = (2 * u + 1) * den := by rw [← hr]; linear_combination (den : ℚ) * h
      exact h3 (.inr (by exact_mod_cast this))

/-! ## The power of two below a quotient -/

theorem shiftLeft_le_iff {num den : Nat} (k : Int) :
    den <<< k.toNat ≤ num <<< (-k).toNat ↔ (den * 2 ^ k : ℚ) ≤ num := by
  have hp : (0 : ℚ) < 2 ^ (-k).toNat := by positivity
  rw [zpow_eq_div two_ne_zero, ← mul_div_assoc, div_le_iff₀ hp, Nat.shiftLeft_eq, Nat.shiftLeft_eq]
  exact_mod_cast Iff.rfl

theorem log2Ratio_spec {num den : Nat} (hn : 0 < num) (hd : 0 < den) :
    (den * 2 ^ log2Ratio num den : ℚ) ≤ num ∧ (num : ℚ) < den * 2 ^ (log2Ratio num den + 1) := by
  have two : (2 : ℚ) ≠ 0 := two_ne_zero
  have n1 : ((2 ^ num.log2 : Nat) : ℚ) ≤ num := by exact_mod_cast Nat.log2_self_le hn.ne'
  have n2 : (num : ℚ) < (2 ^ (num.log2 + 1) : Nat) := by exact_mod_cast Nat.lt_log2_self
  have d1 : ((2 ^ den.log2 : Nat) : ℚ) ≤ den := by exact_mod_cast Nat.log2_self_le hd.ne'
  have d2 : (den : ℚ) < (2 ^ (den.log2 + 1) : Nat) := by exact_mod_cast Nat.lt_log2_self
  push_cast at n1 n2 d1 d2
  have low : (den * 2 ^ ((num.log2 : Int) - den.log2 - 1) : ℚ) ≤ num :=
    calc (den * 2 ^ ((num.log2 : Int) - den.log2 - 1) : ℚ)
      _ ≤ 2 ^ (den.log2 + 1) * 2 ^ ((num.log2 : Int) - den.log2 - 1) := by gcongr
      _ = 2 ^ num.log2 := by
        rw [← zpow_natCast, ← zpow_natCast, ← zpow_add₀ two]
        congr 1
        push_cast
        ring
      _ ≤ num := n1
  have high : (num : ℚ) < den * 2 ^ ((num.log2 : Int) - den.log2 + 1) :=
    calc (num : ℚ)
      _ < 2 ^ (num.log2 + 1) := n2
      _ = 2 ^ den.log2 * 2 ^ ((num.log2 : Int) - den.log2 + 1) := by
        rw [← zpow_natCast, ← zpow_natCast, ← zpow_add₀ two]
        congr 1
        push_cast
        ring
      _ ≤ den * 2 ^ ((num.log2 : Int) - den.log2 + 1) := by gcongr
  unfold log2Ratio
  dsimp only
  split
  · next h => exact ⟨(shiftLeft_le_iff _).1 h, high⟩
  · next h =>
    rw [shiftLeft_le_iff, not_le] at h
    exact ⟨low, by rwa [sub_add_cancel]⟩

/-! ## Rounding a quotient -/

/-- A quotient scaled to units in the last place, `2 ^ unit`, as `roundRatio` scales it. -/
theorem exists_inUnits (num : Nat) {den e : Nat} {unit : Int} (hd : 0 < den) (he : unit = e - 1074) :
    ∃ r : ℚ, r * (den <<< unit.toNat : Nat) = (num <<< (-unit).toNat : Nat) ∧
      r = num / den * 2 ^ (-unit) ∧ inUnits (num / den) = r * 2 ^ e := by
  have two : (2 : ℚ) ≠ 0 := two_ne_zero
  have hd : (den : ℚ) ≠ 0 := by exact_mod_cast hd.ne'
  refine ⟨num / den * 2 ^ (-unit), ?_, rfl, ?_⟩
  · rw [zpow_eq_div two, neg_neg, Nat.shiftLeft_eq, Nat.shiftLeft_eq]
    push_cast
    field_simp
  · rw [inUnits, unitsPerOne, Nat.cast_pow, Nat.cast_ofNat, mul_assoc, ← zpow_natCast,
      ← zpow_natCast, ← zpow_add₀ two]
    congr 2
    push_cast
    omega

/-- **Rounding is to the nearest.** -/
theorem isNearest_roundRatio (num : Nat) {den : Nat} (hd : 0 < den) :
    IsNearest (num / den) (roundRatio num den) := by
  rcases Nat.eq_zero_or_pos num with rfl | hn
  · have hzero : ((0 : ℕ) : ℚ) / den = magnitudeValue 0 := by
      have hunits : units 0 = 0 := rfl
      rw [magnitudeValue, hunits, Nat.cast_zero, zero_div, zero_div]
    rw [hzero, roundRatio, if_pos rfl]
    exact isNearest_magnitudeValue (Nat.zero_le _)
  obtain ⟨low, high⟩ := log2Ratio_spec hn hd
  simp only [roundRatio, if_neg hn.ne']
  generalize log2Ratio num den = k at low high
  generalize hunit : max (-1074) (k - 52) = unit
  obtain ⟨e, he⟩ : ∃ e : Nat, unit = e - 1074 := ⟨(unit + 1074).toNat, by omega⟩
  rw [show (unit + 1074).toNat = e by omega]
  have hD : 0 < den <<< unit.toNat := by
    rw [Nat.shiftLeft_eq]
    positivity
  -- `r` is the quotient in units in the last place.
  obtain ⟨r, hr, hscale, ht⟩ := exists_inUnits num hd he
  obtain ⟨h1, h2, h3⟩ := divNearestEven_spec hD hr
  generalize divNearestEven (num <<< (-unit).toNat) (den <<< unit.toNat) = u at h1 h2 h3
  have hpow : (0 : ℚ) < 2 ^ (-unit) := by positivity
  have hden : (0 : ℚ) < den := by exact_mod_cast hd
  have hdd : (den : ℚ) / den = 1 := div_self hden.ne'
  have full : (hiddenBit : ℚ) = 2 ^ (52 : Int) := by norm_num [hiddenBit]
  have below : r < 2 * hiddenBit :=
    calc r
      _ = num / den * 2 ^ (-unit) := hscale
      _ < den * 2 ^ (k + 1) / den * 2 ^ (-unit) := by gcongr
      _ = 2 ^ (k + 1 - unit) := by
        rw [mul_div_right_comm, hdd, one_mul, ← zpow_add₀ two_ne_zero, sub_eq_add_neg]
      _ ≤ 2 ^ (53 : Int) := zpow_le_zpow_right₀ one_le_two (by omega)
      _ = 2 * hiddenBit := by norm_num [hiddenBit]
  have above : e = 0 ∨ (hiddenBit : ℚ) ≤ r := by
    refine or_iff_not_imp_left.2 fun h0 => ?_
    calc (hiddenBit : ℚ)
      _ = 2 ^ (k - unit) := by rw [full, show k - unit = 52 by omega]
      _ = den * 2 ^ k / den * 2 ^ (-unit) := by
        rw [mul_div_right_comm, hdd, one_mul, ← zpow_add₀ two_ne_zero, sub_eq_add_neg]
      _ ≤ num / den * 2 ^ (-unit) := by gcongr
      _ = r := hscale.symm
  have hp : (0 : ℚ) < 2 ^ e := by positivity
  refine isNearest_of_places ?_ ?_ ?_ ?_ ?_ ?_
  · have : (u : ℚ) < 2 * hiddenBit + 1 := by linarith
    exact Nat.lt_succ_iff.1 (by exact_mod_cast this)
  · refine above.imp_right fun h => ?_
    have : (hiddenBit : ℚ) < u + 1 := by linarith
    exact Nat.lt_succ_iff.1 (by exact_mod_cast this)
  all_goals rw [ht]
  · exact above.imp_right fun h => by gcongr
  all_goals rw [← mul_assoc]
  · gcongr
  · gcongr
  · simpa only [mul_left_inj' hp.ne'] using h3

end JsonCodec.Binary64
