/-
What is written of a value that has no others inside it: a word, bytes between quotes that need no
escape, or a quoted text (`isLexeme_leafText`). Only a quoted text depends on how text is escaped.
-/
import JsonCodec.Proofs.Encoder.Forms
import JsonCodec.Proofs.Encoder.Tokens
import JsonCodec.Proofs.Lines

namespace JsonCodec

open Place

/-- A text that is copied from elsewhere. -/
def Value.isFragment : Value → Bool
  | .fragment _ => true
  | _ => false

/-- A byte of a number or a name. -/
def isNameByte (x : UInt8) : Bool := isWordByte x && x < 0x80

inductive IsLexeme (asciiOnly : Bool) : Bytes → Prop
  | word {b : Bytes} (hne : b ≠ []) (h : b.all isNameByte = true) : IsLexeme asciiOnly b
  | plain {b : Bytes} (h : PlainBytes b) : IsLexeme asciiOnly (quoted b)
  | literal (text : String) : IsLexeme asciiOnly (Quoted.literal asciiOnly text)

variable {σ : Type} {asciiOnly : Bool}

theorem isLexeme_number (n : Grammar.Number) : IsLexeme asciiOnly n.bytes := by
  have hbytes : ∀ x ∈ numberBytes, isNameByte x = true := List.all_eq_true.1 (by decide)
  refine .word ?_ (List.all_eq_true.2 fun x hx => hbytes x (n.mem_numberBytes x hx))
  rw [Grammar.Number.bytes]
  simp [(Digits.isCanonical_iff.1 n.whole_ok).1]

theorem isLexeme_digits (z : Int) : IsLexeme asciiOnly (Digits.ofInt z) := by
  rw [← Grammar.Number.bytes_ofInt]
  exact isLexeme_number _

theorem isLexeme_float {o : Options} {x : Binary64} {b : Bytes} (h : Scalar.float o x = .ok b) :
    IsLexeme asciiOnly b := by
  rw [Scalar.float] at h
  split at h
  · next hx =>
    cases h
    obtain ⟨n, hn, -⟩ := Binary64.exists_literal hx
    rw [← hn]
    exact isLexeme_number n
  · split at h
    · cases h
      cases Scalar.nonFinite x <;> exact .word (by decide) (by decide)
    · cases h

/-- **A value with a text of its own is written as one lexeme.** -/
theorem isLexeme_leafText {e : Encoder σ} {v : Value} {b : Bytes} (hf : e.form v = .leaf)
    (hfrag : v.isFragment = false) (h : v.leafText e.options = .ok b) :
    IsLexeme e.options.asciiOnly b := by
  cases v with
  | null =>
    cases h
    exact .word (by decide) (by decide)
  | bool y =>
    cases y with
    | true =>
      cases h
      exact .word (by decide) (by decide)
    | false =>
      cases h
      exact .word (by decide) (by decide)
  | int n =>
    rw [Value.leafText, Scalar.int] at h
    split at h
    · cases h
    · cases h
      exact isLexeme_digits _
  | bigInt n =>
    rw [Value.leafText, Scalar.bigInt] at h
    split at h
    · cases h
    · cases h
      exact isLexeme_digits _
  | float x => exact isLexeme_float h
  | str text =>
    cases h
    exact .literal text
  | dateTime t =>
    rw [Value.leafText] at h
    cases ht : t.text e.options with
    | error y =>
      rw [ht] at h
      cases h
    | ok bytes =>
      rw [ht] at h
      cases h
      exact .plain (.dateTime ht)
  | date d =>
    cases h
    exact .plain (.date d)
  | time t =>
    cases h
    exact .plain (.time t _)
  | uuid id =>
    cases h
    exact .plain (.uuid id)
  | fragment raw => cases hfrag
  | foreign id name =>
    rw [Encoder.form] at hf
    split at hf
    · cases hf
    · split at hf <;> cases hf
  | array _ | object _ | shared _ => cases hf

end JsonCodec
