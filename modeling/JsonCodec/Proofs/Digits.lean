/-
A canonical digit string is the text of its number (`ofNat_value`), so numbers and their texts go
one to one, with a sign too.
-/
import Mathlib.Data.List.Induction
import JsonCodec.Digits

namespace JsonCodec.Digits

open Ascii

theorem digit_digitValue {b : UInt8} (h : isDigit b = true) : digit (digitValue b) = b := by
  have hb : 48 ≤ b.toNat ∧ b.toNat ≤ 57 := by
    simpa [isDigit, UInt8.le_iff_toNat_le] using h
  rw [digit, digitValue, Nat.mod_eq_of_lt (by omega), Nat.add_sub_cancel' hb.1,
    UInt8.ofNat_toNat]

theorem digitValue_lt {b : UInt8} (h : isDigit b = true) : digitValue b < 10 := by
  have hb : 48 ≤ b.toNat ∧ b.toNat ≤ 57 := by
    simpa [isDigit, UInt8.le_iff_toNat_le] using h
  rw [digitValue]
  omega

theorem value_singleton (b : UInt8) : value [b] = digitValue b := by
  rw [← List.nil_append [b], value_append_singleton]
  simp [value_eq, valueFrom]

/-! ## Canonical digits -/

theorem isCanonical_iff {digits : Bytes} :
    isCanonical digits = true ↔
      digits ≠ [] ∧ (∀ b ∈ digits, isDigit b = true) ∧
        (digits.head? = some zero → digits = [zero]) := by
  match digits with
  | [] => simp [isCanonical]
  | [b] => simp [isCanonical]
  | b :: c :: rest =>
    simp only [isCanonical, Bool.and_eq_true, bne_iff_ne, List.all_eq_true]
    constructor
    · intro ⟨⟨hb, hz⟩, hall⟩
      exact ⟨by simp, List.forall_mem_cons.2 ⟨hb, hall⟩, fun h => absurd (by simpa using h) hz⟩
    · intro ⟨_, hall, hz⟩
      obtain ⟨hb, hall⟩ := List.forall_mem_cons.1 hall
      exact ⟨⟨hb, fun h => by simpa using hz (by simp [h])⟩, hall⟩

/-- What stands in front of the last digit is canonical and not zero. -/
theorem isCanonical_append_singleton {digits : Bytes} {b : UInt8} (h : digits ≠ []) :
    isCanonical (digits ++ [b]) = true ↔
      isCanonical digits = true ∧ digits ≠ [zero] ∧ isDigit b = true := by
  obtain ⟨a, rest, rfl⟩ := List.exists_cons_of_ne_nil h
  simp only [isCanonical_iff, List.cons_append, List.head?_cons, Option.some.injEq, List.mem_append,
    List.mem_cons, List.cons.injEq, List.append_eq_nil_iff, List.cons_ne_self, and_false]
  grind

theorem isCanonical_ofNat (n : Nat) : isCanonical (ofNat n) = true ∧ (ofNat n = [zero] → n = 0) := by
  induction n using Nat.strongRecOn with
  | _ n ih =>
    by_cases h : n < 10
    · rw [ofNat_of_lt h]
      refine ⟨isDigit_digit n, fun hz => ?_⟩
      have hv := digitValue_digit n
      rw [(List.cons.inj hz).1] at hv
      rw [← Nat.mod_eq_of_lt h, ← hv]
      rfl
    · obtain ⟨hc, hz⟩ := ih (n / 10) (by omega)
      have hne : ofNat (n / 10) ≠ [] := (isCanonical_iff.1 hc).1
      rw [ofNat_of_le (by omega)]
      refine ⟨(isCanonical_append_singleton hne).2 ⟨hc, fun h => ?_, isDigit_digit n⟩, fun h => ?_⟩
      · have := hz h
        omega
      · exact absurd (congrArg List.length h) (by
          have := List.length_pos_iff.2 hne
          simp only [List.length_append, List.length_singleton]
          omega)

/-- **A canonical digit string is the text of its number.** -/
theorem ofNat_value {digits : Bytes} (h : isCanonical digits = true) :
    ofNat (value digits) = digits := by
  induction digits using List.reverseRecOn with
  | nil => cases h
  | append_singleton digits b ih =>
    by_cases hne : digits = []
    · subst hne
      rw [List.nil_append, value_singleton, ofNat_of_lt (digitValue_lt h), digit_digitValue h]
    · obtain ⟨hc, hz, hb⟩ := (isCanonical_append_singleton hne).1 h
      have hv := digitValue_lt hb
      have hpos : 0 < value digits := by
        refine Nat.pos_of_ne_zero fun h0 => hz ?_
        rw [← ih hc, h0, ofNat_of_lt (by decide)]
        rfl
      have hd : (value digits * 10 + digitValue b) / 10 = value digits := by omega
      have hr : digit (value digits * 10 + digitValue b) = b := by
        rw [← digit_digitValue hb, digitValue_digit, digit, digit, Nat.mul_add_mod_self_right]
        simp only [Nat.mod_mod]
      rw [value_append_singleton, ofNat_of_le (by omega), hd, hr, ih hc]

theorem ofNat_injective {m n : Nat} (h : ofNat m = ofNat n) : m = n := by
  rw [← value_ofNat m, h, value_ofNat]

/-- A number has one text, with its sign. -/
theorem ofInt_injective {y z : Int} (h : ofInt y = ofInt z) : y = z := by
  have sign (n : Nat) : (ofNat n).head? ≠ some minus := by
    intro hm
    obtain ⟨_, hall, -⟩ := isCanonical_iff.1 (isCanonical_ofNat n).1
    exact absurd (hall minus (List.mem_of_mem_head? hm)) (by decide)
  simp only [ofInt] at h
  split at h <;> split at h
  · have := ofNat_injective (List.cons.inj h).2
    omega
  · exact absurd (by rw [← h]; rfl) (sign z.natAbs)
  · exact absurd (by rw [h]; rfl) (sign y.natAbs)
  · have := ofNat_injective h
    omega

/-! ## Size -/

theorem value_append (front back : Bytes) :
    value (front ++ back) = value front * tenPow back.length + value back := by
  rw [value_eq, value_eq, value_eq, valueFrom_append, valueFrom_eq (valueFrom 0 front)]

theorem value_replicate_zero (k : Nat) : value (List.replicate k zero) = 0 := by
  induction k with
  | zero => rfl
  | succ k ih => rw [List.replicate_succ', value_append_singleton, ih]; rfl

theorem value_lt {digits : Bytes} (h : ∀ b ∈ digits, isDigit b = true) :
    value digits < tenPow digits.length := by
  induction digits using List.reverseRecOn with
  | nil => exact Nat.one_pos
  | append_singleton digits b ih =>
    have hd := digitValue_lt (h b (by simp))
    have hv := ih fun x hx => h x (List.mem_append_left _ hx)
    rw [value_append_singleton, List.length_append, List.length_singleton, tenPow_succ]
    omega

/-- Digits with none of them zero in front. -/
theorem tenPow_le_value {digits : Bytes} (h : isCanonical digits = true) (hz : digits ≠ [zero]) :
    tenPow (digits.length - 1) ≤ value digits := by
  obtain ⟨hne, hall, hfront⟩ := isCanonical_iff.1 h
  obtain ⟨b, rest, rfl⟩ := List.exists_cons_of_ne_nil hne
  have hb : 1 ≤ digitValue b := by
    refine Nat.pos_of_ne_zero fun h0 => ?_
    have : digit (digitValue b) = zero := by rw [h0]; rfl
    rw [digit_digitValue (hall b (by simp))] at this
    exact hz (hfront (by rw [this]; rfl))
  rw [← List.singleton_append, value_append, value_singleton, List.length_append,
    List.length_singleton, Nat.add_sub_cancel_left]
  exact Nat.le_add_right_of_le (Nat.le_mul_of_pos_left _ hb)

end JsonCodec.Digits
