/-
How the digits of an exponent are read. Below the limit they are read as the number that they
spell (`exponentSize_eq_value`); past it they are not, and with enough other digits that shows.
-/
import JsonCodec.Document.NumberLiteral

namespace JsonCodec.NumberLiteral

open Ascii

theorem le_valueFrom (n : Nat) (digits : Bytes) : n ≤ Digits.valueFrom n digits := by
  rw [Digits.valueFrom_eq]
  exact Nat.le_add_right_of_le (Nat.le_mul_of_pos_right n (Digits.tenPow_pos _))

theorem foldl_exponent_eq (n : Nat) (digits : Bytes)
    (h : Digits.valueFrom n digits < exponentLimit) :
    digits.foldl (fun n b => if n < exponentLimit then n * 10 + digitValue b else n) n =
      Digits.valueFrom n digits := by
  induction digits generalizing n with
  | nil => rfl
  | cons b digits ih =>
    have hn := Nat.lt_of_le_of_lt (le_valueFrom n (b :: digits)) h
    rw [List.foldl_cons, if_pos hn]
    exact ih (n * 10 + digitValue b) h

/-- An exponent below the limit is read as the number that its digits spell. -/
theorem exponentSize_eq_value {digits : Bytes} (h : Digits.value digits < exponentLimit) :
    exponentSize digits = Digits.value digits := by
  rw [Digits.value_eq] at h ⊢
  exact foldl_exponent_eq 0 digits h

end JsonCodec.NumberLiteral
