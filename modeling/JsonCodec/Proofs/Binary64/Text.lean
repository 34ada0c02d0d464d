/-
The text of a finite number is a literal of the grammar, with a fraction or an exponent, and the
number is what that literal denotes (`exists_literal`).

The layouts put the same digits in different places; `top` is the power of ten at which the first
one stands, and what each layout has to keep is `top`.
-/
import Mathlib.Algebra.Order.Field.Power
import Mathlib.Data.List.TakeWhile
import JsonCodec.Proofs.Binary64.Shortest
import JsonCodec.Proofs.Digits
import JsonCodec.Proofs.Document.Exponent
import JsonCodec.Proofs.Grammar

namespace JsonCodec.Binary64

open Ascii Grammar NumberLiteral

/-! ## Zeros at the end -/

theorem exists_trimZeros (digits : Bytes) :
    ∃ k, digits = trimZeros digits ++ List.replicate k zero := by
  have hsplit := List.takeWhile_append_dropWhile (p := (· == zero)) (l := digits.reverse)
  have hzeros : digits.reverse.takeWhile (· == zero) =
      List.replicate (digits.reverse.takeWhile (· == zero)).length zero := by
    refine List.eq_replicate_iff.2 ⟨rfl, fun b hb => ?_⟩
    exact eq_of_beq (List.mem_takeWhile_imp (p := (· == zero)) hb)
  refine ⟨(digits.reverse.takeWhile (· == zero)).length, ?_⟩
  rw [trimZeros, ← List.reverse_replicate, ← List.reverse_append, ← hzeros, hsplit,
    List.reverse_reverse]

/-- Digits of a number that is not zero, without the zeros at their end. -/
theorem trimZeros_ofNat {n : Nat} (h : n ≠ 0) :
    ∃ b rest, trimZeros (Digits.ofNat n) = b :: rest ∧ b ≠ zero ∧
      ∀ x ∈ b :: rest, isDigit x = true := by
  obtain ⟨hc, hz⟩ := Digits.isCanonical_ofNat n
  obtain ⟨-, hall, hfront⟩ := Digits.isCanonical_iff.1 hc
  have hhead : (Digits.ofNat n).head? ≠ some zero := fun hf => h (hz (hfront hf))
  obtain ⟨k, hk⟩ := exists_trimZeros (Digits.ofNat n)
  cases ht : trimZeros (Digits.ofNat n) with
  | nil =>
    rw [ht, List.nil_append] at hk
    cases k with
    | zero => rw [hk] at hc; cases hc
    | succ k => exact absurd (by rw [hk]; rfl) hhead
  | cons b rest =>
    rw [ht] at hk
    refine ⟨b, rest, rfl, fun hb => hhead (by rw [hk, hb]; rfl), fun x hx => hall x ?_⟩
    rw [hk]
    exact List.mem_append_left _ hx

/-! ## Layouts -/

/-- The power of ten at which the first digit stands. -/
def top (d : Decimal) : Int := (Digits.ofNat d.coefficient).length + d.exponent - 1

/-- A literal for a decimal: not an integer, with the value of the decimal. -/
def IsLiteral (d : Decimal) (bytes : Bytes) (n : Number) : Prop :=
  n.negative = false ∧ n.bytes = bytes ∧ n.isInteger = false ∧ n.size exponentSize = d.value

theorem size_of_fraction {n : Number} {fraction : Bytes} (hf : n.fraction = some fraction)
    (he : n.exponent = none) : n.size exponentSize =
      Digits.value (n.whole ++ fraction) * 10 ^ (-(fraction.length : Int)) := by
  simp [Number.size, hf, he]

/-- The value by the digits that are left, the first of them at the power `top`. -/
theorem value_eq_trimZeros (d : Decimal) (digits : Bytes)
    (h : trimZeros (Digits.ofNat d.coefficient) = digits) :
    d.value = Digits.value digits * 10 ^ (top d + 1 - digits.length) := by
  have ten : (10 : ℚ) ≠ 0 := by norm_num
  obtain ⟨k, hk⟩ := exists_trimZeros (Digits.ofNat d.coefficient)
  rw [h] at hk
  have hv : d.coefficient = Digits.value digits * Digits.tenPow k := by
    have := congrArg Digits.value hk
    rwa [Digits.value_ofNat, Digits.value_append, Digits.value_replicate_zero, Nat.add_zero,
      List.length_replicate] at this
  have hl : (Digits.ofNat d.coefficient).length = digits.length + k := by
    rw [hk, List.length_append, List.length_replicate]
  have he : top d + 1 - digits.length = k + d.exponent := by
    rw [top, hl]
    push_cast
    ring
  rw [Decimal.value, he, zpow_add₀ ten, zpow_natCast, hv]
  push_cast
  rw [Decimal.cast_tenPow]
  ring

/-- Digits, the first of them not zero. -/
theorem isCanonical_cons {b : UInt8} {rest : Bytes} (hb : b ≠ zero)
    (h : ∀ x ∈ b :: rest, isDigit x = true) : Digits.isCanonical (b :: rest) = true :=
  Digits.isCanonical_iff.2 ⟨List.cons_ne_nil _ _, h, fun hz => absurd (Option.some.inj hz) hb⟩

theorem isDigit_of_mem_replicate (k : Nat) : ∀ x ∈ List.replicate k zero, isDigit x = true := by
  intro x hx
  rw [List.eq_of_mem_replicate hx]
  rfl

theorem isDigits_ofNat (n : Nat) : IsDigits (Digits.ofNat n) := by
  obtain ⟨hne, hall, -⟩ := Digits.isCanonical_iff.1 (Digits.isCanonical_ofNat n).1
  exact ⟨hne, hall⟩

/-- A whole number as an exponent. -/
def exponentOf (z : Int) : Exponent :=
  .ofDigits (z < 0) (Digits.ofNat z.natAbs) (isDigits_ofNat z.natAbs)

theorem bytes_exponentOf (z : Int) : (exponentOf z).bytes = letterE :: Digits.ofInt z := by
  simp only [Exponent.bytes, exponentOf, Exponent.ofDigits, Digits.ofInt, decide_eq_true_eq]
  split <;> rfl

theorem value_exponentOf {z : Int} (h : z.natAbs < exponentLimit) :
    (exponentOf z).value exponentSize = z := by
  have hsize : exponentSize (Digits.ofNat z.natAbs) = z.natAbs := by
    rw [exponentSize_eq_value (by rwa [Digits.value_ofNat]), Digits.value_ofNat]
  by_cases hz : z < 0
  · simp only [Exponent.value, exponentOf, Exponent.ofDigits, hsize, hz, decide_true, ite_true]
    omega
  · simp only [Exponent.value, exponentOf, Exponent.ofDigits, hsize, hz, decide_false,
      Bool.false_eq_true, reduceCtorEq, ite_false]
    omega

section

variable {d : Decimal} {b : UInt8} {rest : Bytes}
  (hdigits : trimZeros (Digits.ofNat d.coefficient) = b :: rest)
  (hall : ∀ x ∈ b :: rest, isDigit x = true) (hb : b ≠ zero)
include hdigits hall

theorem exists_withExponent (hsmall : (top d).natAbs < exponentLimit) :
    ∃ n, IsLiteral d (withExponent (b :: rest) (top d)) n := by
  have hv := value_eq_trimZeros d _ hdigits
  have hw : Digits.isCanonical [b] = true := hall b (by simp)
  have he := value_exponentOf hsmall
  unfold withExponent
  cases rest with
  | nil =>
    refine ⟨⟨false, [b], none, some (exponentOf (top d)), hw, isDigits_of_mem_none⟩, rfl, ?_, rfl, ?_⟩
    · simp [Number.bytes, bytes_exponentOf]
    · rw [hv]
      simp [Number.size, he]
  | cons r more =>
    have hf : IsDigits (r :: more) :=
      ⟨List.cons_ne_nil _ _, fun x hx => hall x (List.mem_cons_of_mem _ hx)⟩
    refine ⟨⟨false, [b], some (r :: more), some (exponentOf (top d)), hw,
      fun _ h => Option.some.inj h ▸ hf⟩, rfl, ?_, rfl, ?_⟩
    · simp [Number.bytes, bytes_exponentOf]
    · rw [hv]
      simp only [Number.size, he, Option.map_some, Option.getD_some, List.singleton_append]
      congr 2
      simp only [List.length_cons]
      push_cast
      ring

include hb

/-- The point is put in its place, in front of the digits, between them or behind them. -/
theorem exists_placePoint : ∃ n, IsLiteral d (placePoint (b :: rest) (top d + 1)) n := by
  have hv := value_eq_trimZeros d _ hdigits
  have ten : (10 : ℚ) ≠ 0 := by norm_num
  generalize top d + 1 = before at hv
  unfold placePoint
  split
  · next hle =>
    have hf : IsDigits (List.replicate (-before).toNat zero ++ b :: rest) :=
      ⟨by simp, List.forall_mem_append.2 ⟨isDigit_of_mem_replicate _, hall⟩⟩
    refine ⟨⟨false, [zero], some _, none, rfl, fun _ h => Option.some.inj h ▸ hf⟩, rfl, ?_, rfl,
      (size_of_fraction rfl rfl).trans ?_⟩
    · simp [Number.bytes]
    · have hzero : Digits.value [zero] = 0 := by decide
      rw [hv, Digits.value_append, Digits.value_append, Digits.value_replicate_zero, hzero,
        Nat.zero_mul, Nat.zero_mul, Nat.zero_add, Nat.zero_add]
      congr 2
      simp only [List.length_append, List.length_replicate]
      omega
  · next hle =>
    split
    · next hlt =>
      have hlen : before.toNat < (b :: rest).length := by omega
      have hf : IsDigits ((b :: rest).drop before.toNat) := by
        refine ⟨fun h => ?_, fun x hx => hall x (List.mem_of_mem_drop hx)⟩
        have := congrArg List.length h
        rw [List.length_drop, List.length_nil] at this
        omega
      obtain ⟨k, hk⟩ : ∃ k, before.toNat = k + 1 := ⟨before.toNat - 1, by omega⟩
      have hw : Digits.isCanonical ((b :: rest).take before.toNat) = true := by
        rw [hk, List.take_succ_cons]
        refine isCanonical_cons hb fun x hx => hall x ?_
        exact List.mem_of_mem_take (i := k + 1) hx
      refine ⟨⟨false, _, some _, none, hw, fun _ h => Option.some.inj h ▸ hf⟩, rfl, ?_, rfl,
        (size_of_fraction rfl rfl).trans ?_⟩
      · simp [Number.bytes]
      · rw [hv, List.take_append_drop, List.length_drop]
        congr 2
        omega
    · next hge =>
      have hf : IsDigits [zero] := ⟨List.cons_ne_nil _ _, isDigit_of_mem_replicate 1⟩
      have hw : Digits.isCanonical
          (b :: rest ++ List.replicate (before.toNat - (b :: rest).length) zero) = true := by
        refine isCanonical_cons hb ?_
        exact List.forall_mem_append.2 ⟨hall, isDigit_of_mem_replicate _⟩
      refine ⟨⟨false, _, some _, none, hw, fun _ h => Option.some.inj h ▸ hf⟩, rfl, ?_, rfl,
        (size_of_fraction rfl rfl).trans ?_⟩
      · simp [Number.bytes]
      · have hk : before - (b :: rest).length = (before.toNat - (b :: rest).length : Nat) := by omega
        have hzero : digitValue zero = 0 := by decide
        rw [hv, hk, Digits.value_append_singleton, Digits.value_append,
          Digits.value_replicate_zero, hzero, Nat.add_zero, Nat.add_zero, List.length_replicate,
          zpow_natCast, List.length_singleton]
        push_cast
        rw [Decimal.cast_tenPow, zpow_neg_one, mul_inv_cancel_right₀ ten]

end

/-- Zero is `0.0`. -/
theorem exists_zero {d : Decimal} (h : d.coefficient = 0) :
    ∃ n, IsLiteral d (placePoint [] 0 ++ [zero]) n := by
  refine ⟨⟨false, [zero], some [zero], none, rfl, fun _ h => Option.some.inj h ▸
    ⟨List.cons_ne_nil _ _, isDigit_of_mem_replicate 1⟩⟩, rfl, rfl, rfl, ?_⟩
  have hzero : Digits.value ([zero] ++ [zero]) = 0 := by decide
  rw [size_of_fraction rfl rfl, Decimal.value, h, hzero]
  simp

/-- A decimal whose first digit stands not too far from the point is laid out as a literal. -/
theorem exists_layout {d : Decimal} (h : d.coefficient ≠ 0 → (top d).natAbs < exponentLimit) :
    ∃ n, IsLiteral d (layout d) n := by
  simp only [layout]
  split
  · next hc => exact exists_zero hc
  · next hc =>
    obtain ⟨b, rest, hdigits, hb, hall⟩ := trimZeros_ofNat hc
    rw [hdigits]
    split
    · exact exists_placePoint hdigits hall hb
    · exact exists_withExponent hdigits hall (h hc)

/-! ## The place of the first digit -/

theorem tenPow_top {d : Decimal} (h : d.coefficient ≠ 0) :
    (10 : ℚ) ^ top d ≤ d.value ∧ d.value < 10 ^ (top d + 1) := by
  have ten : (10 : ℚ) ≠ 0 := by norm_num
  have hpos : (0 : ℚ) < 10 ^ d.exponent := by positivity
  obtain ⟨hc, hz⟩ := Digits.isCanonical_ofNat d.coefficient
  obtain ⟨hne, hall, -⟩ := Digits.isCanonical_iff.1 hc
  have low := Digits.tenPow_le_value hc fun h0 => h (hz h0)
  have high := Digits.value_lt hall
  rw [Digits.value_ofNat] at low high
  obtain ⟨k, hk⟩ : ∃ k, (Digits.ofNat d.coefficient).length = k + 1 :=
    Nat.exists_eq_add_one.2 (List.length_pos_iff.2 hne)
  have htop : top d = k + d.exponent := by
    rw [top, hk]
    push_cast
    ring
  rw [hk, Nat.add_sub_cancel] at low
  rw [hk] at high
  have low : (10 : ℚ) ^ k ≤ d.coefficient := by
    rw [← Decimal.cast_tenPow]
    exact_mod_cast low
  have high : (d.coefficient : ℚ) < 10 ^ (k + 1) := by
    rw [← Decimal.cast_tenPow]
    exact_mod_cast high
  rw [htop, Decimal.value, Int.add_right_comm, zpow_add₀ ten, zpow_add₀ ten, ← Nat.cast_succ,
    zpow_natCast, zpow_natCast]
  exact ⟨by gcongr, by gcongr⟩

/-- Zero has no other decimal. -/
theorem coefficient_shortest {x : Binary64} (h : x.magnitude = 0) : x.shortest.coefficient = 0 := by
  have hs : x.significand = 0 := by rw [significand, h]; rfl
  have hd : x.toDecimal.coefficient = 0 := by
    rw [toDecimal, hs]
    split <;> simp
  have hl : (Digits.ofNat 0).length - 1 = 0 := by rw [Digits.ofNat_of_lt (by decide)]; rfl
  simp only [shortest, hd, hl, Decimal.shortestWithin]

/-- The first digit of a finite number stands where an exponent can tell. -/
theorem top_shortest {x : Binary64} (h : x.isFinite = true) (hc : x.shortest.coefficient ≠ 0) :
    (top x.shortest).natAbs < exponentLimit := by
  have hm := toMagnitude_shortest h
  have hfin : x.magnitude < infinityMagnitude := of_decide_eq_true h
  obtain ⟨low, high⟩ := tenPow_top hc
  have one : (1 : ℚ) ≤ 10 := by norm_num
  have hbelow : top x.shortest < 309 := by
    by_contra hge
    have hinf : Binary64.IsNearest x.shortest.value infinityMagnitude := by
      refine isNearest_infinity (le_trans ?_ low)
      rw [Decimal.cast_tenPow, ← zpow_natCast]
      exact zpow_le_zpow_right₀ one (by omega)
    rw [Decimal.toMagnitude_eq_of_isNearest hinf] at hm
    omega
  have habove : -325 < top x.shortest := by
    by_contra hle
    have hzero : Binary64.IsNearest x.shortest.value 0 := by
      refine isNearest_zero (le_trans (by positivity) low) ?_
      rw [Decimal.cast_tenPow, ← zpow_natCast]
      calc x.shortest.value * 10 ^ ((324 : Nat) : Int)
        _ < 10 ^ (top x.shortest + 1) * 10 ^ ((324 : Nat) : Int) := by gcongr
        _ = 10 ^ (top x.shortest + 1 + (324 : Nat)) := (zpow_add₀ (by norm_num) _ _).symm
        _ ≤ 1 := zpow_le_one_of_nonpos₀ one (by push_cast; omega)
    rw [Decimal.toMagnitude_eq_of_isNearest hzero] at hm
    exact hc (coefficient_shortest hm.symm)
  have hlimit : exponentLimit = 65536 := rfl
  omega

/-- **The text of a finite number is a literal, and that literal denotes the number.** -/
theorem exists_literal {x : Binary64} (h : x.isFinite = true) :
    ∃ n : Number, n.bytes = x.text ∧ n.Denotes exponentSize (.float x) := by
  obtain ⟨n, hn, hbytes, hi, hv⟩ := exists_layout (d := x.shortest) (top_shortest h)
  refine ⟨{ n with negative := x.isNegative }, ?_, .float hi rfl ?_ h⟩
  · have hsign : ({ n with negative := x.isNegative } : Number).bytes =
        (if x.isNegative then [minus] else []) ++ n.bytes := by
      simp [Number.bytes, hn]
    rw [hsign, hbytes, text]
    cases x.isNegative <;> rfl
  · rw [← toMagnitude_shortest h]
    have hsize : ({ n with negative := x.isNegative } : Number).size exponentSize =
      x.shortest.value := hv
    rw [hsize]
    exact x.shortest.isNearest_toMagnitude

end JsonCodec.Binary64
