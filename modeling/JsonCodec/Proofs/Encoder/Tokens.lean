/-
The pieces of a document that no container is part of, as the grammar reads them: numbers, and
keys. Every key is written as a text (`KeyText.text_quoted`), also where it is no text.
-/
import JsonCodec.Proofs.Binary64.Text
import JsonCodec.Proofs.Encoder.Rendering
import JsonCodec.Proofs.Escapes
import JsonCodec.Proofs.Integer

namespace JsonCodec

open Ascii Grammar NumberLiteral

/-! ## Numbers -/

/-- The literal of an integer. -/
def Grammar.Number.ofInt (z : Int) : Number where
  negative := z < 0
  whole := Digits.ofNat z.natAbs
  fraction := none
  exponent := none
  whole_ok := (Digits.isCanonical_ofNat _).1
  fraction_ok := isDigits_of_mem_none

namespace Grammar.Number

theorem bytes_ofInt (z : Int) : (Number.ofInt z).bytes = Digits.ofInt z := by
  simp only [bytes, Number.ofInt, Digits.ofInt, decide_eq_true_eq, Option.map_none, Option.getD_none,
    List.append_nil]
  split <;> rfl

theorem integer_ofInt (z : Int) : (Number.ofInt z).integer = z := by
  simp only [integer, Number.ofInt, decide_eq_true_eq, Digits.value_ofNat]
  split <;> omega

theorem denotes_ofInt (size : Bytes → Nat) (z : Int) :
    (Number.ofInt z).Denotes size (Value.ofInt z) := by
  rcases Value.exists_ofInt z with ⟨k, hk, hv⟩ | ⟨n, rfl, hout, hv⟩
  · rw [hv]
    exact .int rfl (hk.trans (integer_ofInt z).symm)
  · rw [hv]
    exact .bigInt rfl (by rwa [integer_ofInt]) (bytes_ofInt _).symm

end Grammar.Number

/-- The digits of an integer denote it. -/
theorem denotes_digits (levels : Nat) (z : Int) :
    Denotes exponentSize levels (Digits.ofInt z) (Value.ofInt z) := by
  rw [← Number.bytes_ofInt]
  exact .number _ (Number.denotes_ofInt _ z)

theorem Value.ofInt_toInt (k : Int64) : Value.ofInt k.toInt = .int k := Value.ofInt_eq_int_iff.2 rfl

/-- A float that has a number is read back. -/
theorem denotes_float {x : Binary64} (h : x.isFinite = true) (levels : Nat) :
    Denotes exponentSize levels x.text (.float x) := by
  obtain ⟨n, hn, hd⟩ := Binary64.exists_literal h
  rw [← hn]
  exact .number n hd

/-! ## Keys -/

namespace KeyText

/-- The text that a reader gets back. -/
def name : KeyText → String
  | own text => text
  | derived text => text
  | plain bytes => asciiText bytes

/-- Whether what is written as it is needs no escape. -/
def IsSound : KeyText → Prop
  | plain bytes => PlainBytes bytes
  | _ => True

variable {k : KeyText}

theorem IsSound.derive (h : k.IsSound) : k.derive.IsSound := by cases k <;> exact h

/-- **A key is written as the text that it is.** -/
theorem text_quoted (h : k.IsSound) (o : Options) : Text (k.quoted o) k.name := by
  cases k with
  | own text | derived text => exact text_literal o.asciiOnly text
  | plain bytes => exact text_of_plainBytes h

theorem plainBytes_float {o : Options} {x : Binary64} {bytes : Bytes}
    (h : Scalar.float o x = .ok bytes) : PlainBytes bytes := by
  rw [Scalar.float] at h
  split at h
  · next hx =>
    cases h
    obtain ⟨n, hn, -⟩ := Binary64.exists_literal hx
    rw [← hn]
    exact .number n
  · split at h
    · cases h
      have hname (x : NonFinite) : (Utf8.encode x.name).all isPlainByte = true := by
        cases x <;> decide
      exact List.all_eq_true.1 (hname _)
    · cases h

theorem isSound_ofLeaf {o : Options} {v : Value} (h : ofLeaf o v = .ok k) : k.IsSound := by
  have map {x : Except EncodeError Bytes} (hx : ∀ bytes, x = .ok bytes → PlainBytes bytes)
      (h : x.map plain = .ok k) : k.IsSound := by
    cases x with
    | error e => cases h
    | ok bytes =>
      cases h
      exact hx bytes rfl
  cases v with
  | null =>
    cases h
    exact List.all_eq_true.1 (by decide : (Utf8.encode "null").all isPlainByte = true)
  | bool b =>
    cases b with
    | true =>
      cases h
      exact List.all_eq_true.1 (by decide : (Utf8.encode "true").all isPlainByte = true)
    | false =>
      cases h
      exact List.all_eq_true.1 (by decide : (Utf8.encode "false").all isPlainByte = true)
  | int n | bigInt n =>
    cases h
    exact PlainBytes.ofInt _
  | float x => exact map (fun _ => plainBytes_float) h
  | dateTime t => exact map (fun _ => PlainBytes.dateTime) h
  | date d =>
    cases h
    exact .date d
  | time t =>
    cases h
    exact .time t o
  | uuid id =>
    cases h
    exact .uuid id
  | _ => cases h

theorem isSound_ofNative {o : Options} {v : Value} (h : ofNative o v = .ok k) : k.IsSound := by
  rw [ofNative.eq_def] at h
  split at h
  · cases h
    exact trivial
  · split at h
    · exact isSound_ofLeaf h
    · cases h

/-- A key that is written as it is needs no escape. -/
theorem isSound_ofValue {g : Graph} {o : Options} {v : Value} (h : ofValue g o v = .ok k) :
    k.IsSound := by
  rw [ofValue.eq_def] at h
  split at h
  · split at h
    · split at h
      · cases h
      · cases h
      · next v _ _ =>
        cases hn : ofNative o v with
        | error e => rw [hn] at h; cases h
        | ok k' =>
          rw [hn] at h
          cases h
          exact (isSound_ofNative hn).derive
    · cases h
  · exact isSound_ofNative h

end KeyText

end JsonCodec
