/-
The two ways in which a value holds an integer: in 64 bits where they hold it, and else whole.
-/
import Mathlib.Algebra.Group.Int.Defs
import JsonCodec.Proofs.Digits
import JsonCodec.Value

namespace JsonCodec

theorem fitsInt64_iff {z : Int} : fitsInt64 z = true ↔ -2 ^ 63 ≤ z ∧ z < 2 ^ 63 := by
  have hmin : Int64.minValue.toInt = -2 ^ 63 := rfl
  have hmax : Int64.maxValue.toInt = 2 ^ 63 - 1 := rfl
  simp only [fitsInt64, hmin, hmax, Bool.and_eq_true, decide_eq_true_eq]
  omega

theorem fitsInt64_toInt (k : Int64) : fitsInt64 k.toInt = true :=
  fitsInt64_iff.2 ⟨k.le_toInt, k.toInt_lt⟩

namespace Value

/-- An integer is kept in 64 bits just if they hold it. -/
theorem ofInt_eq_int_iff {z : Int} {k : Int64} : ofInt z = .int k ↔ k.toInt = z := by
  unfold ofInt
  split
  · next h =>
    obtain ⟨hl, hu⟩ := fitsInt64_iff.1 h
    rw [int.injEq, ← Int64.toInt_inj, Int64.toInt_ofInt_of_le hl hu, eq_comm]
  · next h =>
    simp only [reduceCtorEq, false_iff]
    rintro rfl
    exact h (fitsInt64_toInt k)

theorem ofInt_eq_bigInt_iff {z : Int} {k : BigInt} :
    ofInt z = .bigInt k ↔ fitsInt64 z = false ∧ k.value = z := by
  unfold ofInt
  split
  · next h => simp [h]
  · next h =>
    simp only [bigInt.injEq, Bool.not_eq_true] at h ⊢
    constructor
    · rintro rfl
      exact ⟨h, rfl⟩
    · rintro ⟨-, rfl⟩
      rfl

/-- An integer is kept in one of two forms. -/
theorem exists_ofInt (z : Int) :
    (∃ k : Int64, k.toInt = z ∧ ofInt z = .int k) ∨
      ∃ n : BigInt, n.value = z ∧ fitsInt64 z = false ∧ ofInt z = .bigInt n := by
  cases h : fitsInt64 z with
  | true =>
    have hz : ofInt z = .int (Int64.ofInt z) := if_pos h
    exact .inl ⟨_, ofInt_eq_int_iff.1 hz, hz⟩
  | false =>
    have hz : ofInt z = .bigInt ⟨z⟩ := if_neg (Bool.eq_false_iff.1 h)
    exact .inr ⟨_, rfl, rfl, hz⟩

end Value

end JsonCodec
