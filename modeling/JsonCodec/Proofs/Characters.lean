/-
Bytes that are whole characters (`Utf8.IsText`), as every part of a document is: what stands between
the quotes of a string is characters and escapes, and all the rest is ASCII.
-/
import JsonCodec.Proofs.Escapes

namespace JsonCodec

open Ascii Grammar

theorem toNat_lt_of_isPlainByte {b : UInt8} (h : isPlainByte b = true) : b.toNat < 0x80 := by
  simp only [isPlainByte, Bool.and_eq_true, decide_eq_true_eq] at h
  exact UInt8.lt_iff_toNat_lt.1 h.1.1.2

/-- The bytes are the encoding of a text. -/
def Utf8.IsText (bytes : Bytes) : Prop := ∃ text, Utf8.encode text = bytes

namespace Utf8.IsText

variable {a b bytes : Bytes}

theorem of_chars (chars : List Char) : IsText (chars.flatMap String.utf8EncodeChar) :=
  ⟨String.ofList chars, by rw [encode, String.toList_ofList]⟩

theorem nil : IsText [] := of_chars []

theorem encodeChar (c : Char) : IsText (String.utf8EncodeChar c) := by
  have h := of_chars [c]
  rwa [List.flatMap_singleton] at h

theorem append (ha : IsText a) (hb : IsText b) : IsText (a ++ b) := by
  obtain ⟨s, rfl⟩ := ha
  obtain ⟨t, rfl⟩ := hb
  rw [encode, encode, ← List.flatMap_append]
  exact of_chars _

/-- A byte of ASCII is a character. -/
theorem byte {b : UInt8} (h : b.toNat < 0x80) : IsText [b] := by
  rw [← encodeChar_asciiChar h]
  exact encodeChar _

theorem cons {b : UInt8} (h : b.toNat < 0x80) (hb : IsText bytes) : IsText (b :: bytes) :=
  (byte h).append hb

theorem of_ascii (h : ∀ b ∈ bytes, b.toNat < 0x80) : IsText bytes := by
  induction bytes with
  | nil => exact nil
  | cons b bytes ih =>
    obtain ⟨hb, hbytes⟩ := List.forall_mem_cons.1 h
    exact .cons hb (ih hbytes)

theorem of_plain (h : PlainBytes bytes) : IsText bytes :=
  of_ascii fun b hb => toNat_lt_of_isPlainByte (h b hb)

end Utf8.IsText

open Utf8 (IsText)

variable {size : Bytes → Nat} {bytes : Bytes}

/-! ## Literals -/

theorem isText_blanks (h : Blanks bytes) : IsText bytes := by
  refine .of_ascii fun b hb => ?_
  have hblank := h b hb
  simp only [isBlank, Bool.or_eq_true, beq_iff_eq] at hblank
  rcases hblank with ((rfl | rfl) | rfl) | rfl <;> decide

theorem isText_codeUnit {n : Nat} (h : CodeUnit bytes n) : IsText bytes := by
  have digit {d : UInt8} {i : Nat} (hd : hexValue? d = some i) : d.toNat < 0x80 := by
    simp only [hexValue?, isDigit, Bool.and_eq_true, decide_eq_true_eq, UInt8.le_iff_toNat_le,
      UInt8.reduceToNat] at hd
    split_ifs at hd <;> omega
  cases h with
  | mk ha hb hc hd => exact .cons (digit ha) (.cons (digit hb) (.cons (digit hc) (.byte (digit hd))))

theorem isText_escaped {c : Char} (h : Escaped bytes c) : IsText bytes := by
  cases h with
  | @short letter _ h =>
    have hascii : ∀ x ∈ shortEscapes, decide (x.1.toNat < 0x80) = true :=
      List.all_eq_true.1 (by decide)
    exact .byte (of_decide_eq_true (hascii _ h))
  | unit h _ => exact .cons (by decide) (isText_codeUnit h)
  | pair hh _ hl _ =>
    exact .cons (by decide) ((isText_codeUnit hh).append
      (.cons (by decide) (.cons (by decide) (isText_codeUnit hl))))

theorem isText_chars {chars : List Char} (h : Chars bytes chars) : IsText bytes := by
  induction h with
  | nil => exact .nil
  | plain _ _ ih => exact (IsText.encodeChar _).append ih
  | escape h _ ih => exact .cons (by decide) ((isText_escaped h).append ih)

theorem isText_text {text : String} (h : Text bytes text) : IsText bytes := by
  cases h with
  | mk h => exact .cons (by decide) ((isText_chars h).append (.byte (by decide)))

theorem isText_key {name : String} (h : Key bytes name) : IsText bytes := by
  cases h with
  | mk hb h ha => exact ((isText_blanks hb).append (isText_text h)).append (isText_blanks ha)

/-! ## Documents -/

mutual

theorem isText_denotes : ∀ {n : Nat} {bytes : Bytes} {v : Value}, Denotes size n bytes v →
    IsText bytes
  | _, _, _, .null => ⟨"null", rfl⟩
  | _, _, _, .true => ⟨"true", rfl⟩
  | _, _, _, .false => ⟨"false", rfl⟩
  | _, _, _, .number literal _ => .of_plain (.number literal)
  | _, _, _, .text h => isText_text h
  | _, _, _, .emptyArray hb | _, _, _, .emptyObject hb =>
    .cons (by decide) ((isText_blanks hb).append (.byte (by decide)))
  | _, _, _, .array h => .cons (by decide) ((isText_items h).append (.byte (by decide)))
  | _, _, _, .object h => .cons (by decide) ((isText_fields h).append (.byte (by decide)))

theorem isText_spaced : ∀ {n : Nat} {bytes : Bytes} {v : Value}, Spaced size n bytes v →
    IsText bytes
  | _, _, _, .mk hb h ha => ((isText_blanks hb).append (isText_denotes h)).append (isText_blanks ha)

theorem isText_items : ∀ {n : Nat} {bytes : Bytes} {vs : List Value}, Items size n bytes vs →
    IsText bytes
  | _, _, _, .one h => isText_spaced h
  | _, _, _, .more h hr => (isText_spaced h).append (.cons (by decide) (isText_items hr))

theorem isText_fields : ∀ {n : Nat} {bytes : Bytes} {ms : List (String × Value)},
    Fields size n bytes ms → IsText bytes
  | _, _, _, .one hk h => (isText_key hk).append (.cons (by decide) (isText_spaced h))
  | _, _, _, .more hk h hr =>
    (isText_key hk).append (.cons (by decide)
      ((isText_spaced h).append (.cons (by decide) (isText_fields hr))))

end

end JsonCodec
