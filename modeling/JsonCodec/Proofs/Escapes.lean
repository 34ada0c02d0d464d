/-
What is written between quotes is read as it was meant: a quoted text denotes that text
(`text_literal`), and bytes that need no escape denote their characters (`text_of_plainBytes`).
-/
import JsonCodec.Proofs.PlainBytes
import JsonCodec.Proofs.Quoted

namespace JsonCodec

open Ascii Grammar Quoted

/-- The character of an ASCII byte. -/
def asciiChar (b : UInt8) : Char := Char.ofNat b.toNat

/-- The text of ASCII bytes. -/
def asciiText (bytes : Bytes) : String := String.ofList (bytes.map asciiChar)

variable {bytes : Bytes} {chars : List Char} {b : UInt8} {c : Char}

theorem toNat_asciiChar (h : b.toNat < 0x80) : (asciiChar b).toNat = b.toNat := by
  have hv : b.toNat.isValidChar := .inl (by omega)
  rw [asciiChar, Char.ofNat, dif_pos hv]
  rfl

theorem toNat_ofNat_of_ascii {n : Nat} (h : n < 0x80) : (UInt8.ofNat n).toNat = n :=
  UInt8.toNat_ofNat_of_lt' (Nat.lt_trans h (by decide))

theorem asciiChar_ofNat_toNat (h : c.toNat < 0x80) : asciiChar (UInt8.ofNat c.toNat) = c := by
  rw [asciiChar, toNat_ofNat_of_ascii h]
  exact c.ofNat_toNat

theorem encodeChar_asciiChar (h : b.toNat < 0x80) : String.utf8EncodeChar (asciiChar b) = [b] := by
  rw [Utf8.encodeChar_of_ascii (by rwa [toNat_asciiChar h]), toNat_asciiChar h, UInt8.ofNat_toNat]

/-! ## Hexadecimal digits -/

theorem hexValue?_hexDigit (n : Nat) : hexValue? (hexDigit n) = some (n % 16) := by
  have sixteen : ∀ d < 16,
      hexValue? (UInt8.ofNat (if d < 10 then 0x30 + d else 0x57 + d)) = some d := by decide
  exact sixteen (n % 16) (Nat.mod_lt n (by decide))

theorem codeUnit_hex {n : Nat} (h : n < 0x10000) : CodeUnit (hex 4 n) n := by
  have hunit : CodeUnit (hex 4 n)
      (((n / 16 / 16 / 16 % 16 * 16 + n / 16 / 16 % 16) * 16 + n / 16 % 16) * 16 + n % 16) :=
    .mk (hexValue?_hexDigit _) (hexValue?_hexDigit _) (hexValue?_hexDigit _) (hexValue?_hexDigit _)
  have hn : ((n / 16 / 16 / 16 % 16 * 16 + n / 16 / 16 % 16) * 16 + n / 16 % 16) * 16 + n % 16 = n := by
    omega
  rwa [hn] at hunit

/-! ## Single characters -/

/-- An escape denotes the byte that it is written for. -/
theorem escaped_of_escape? {sequence : Bytes} (h : escape? b = some sequence) :
    ∃ inside, sequence = backslash :: inside ∧ Escaped inside (asciiChar b) := by
  have short {letter : UInt8} {a : UInt8} (hm : (letter, asciiChar a) ∈ shortEscapes) :
      ∃ inside, [backslash, letter] = backslash :: inside ∧ Escaped inside (asciiChar a) :=
    ⟨[letter], rfl, .short hm⟩
  rw [escape?] at h
  split_ifs at h with h1 h2 h3 h4 h5 h6 h7 h8 <;> cases h
  · subst h1
    exact short (by decide)
  · subst h2
    exact short (by decide)
  · subst h3
    exact short (by decide)
  · subst h4
    exact short (by decide)
  · subst h5
    exact short (by decide)
  · subst h6
    exact short (by decide)
  · subst h7
    exact short (by decide)
  · have hb : b.toNat < 0x20 := UInt8.lt_iff_toNat_lt.1 (of_decide_eq_true h8)
    exact ⟨letterU :: hex 4 b.toNat, rfl, .unit (codeUnit_hex (by omega)) (by omega)⟩

/-- A byte of ASCII that is copied denotes itself. -/
theorem isPlain_of_escape?_eq_none (hb : b.toNat < 0x80) (h : escape? b = none) :
    IsPlain (asciiChar b) := by
  have ne {a : UInt8} (ha : a.toNat < 0x80) (hne : b ≠ a) : asciiChar b ≠ asciiChar a := by
    intro heq
    have hn := congrArg Char.toNat heq
    rw [toNat_asciiChar hb, toNat_asciiChar ha] at hn
    exact hne (UInt8.toNat_inj.1 hn)
  rw [escape?] at h
  split_ifs at h with h1 h2 h3 h4 h5 h6 h7 h8
  refine ⟨?_, ne (a := quote) (by decide) h1, ne (a := backslash) (by decide) h2⟩
  rw [toNat_asciiChar hb]
  simpa [isControl, UInt8.lt_iff_toNat_lt] using h8

theorem chars_escapeByte (hb : b.toNat < 0x80) (h : Chars bytes chars) :
    Chars (escapeByte b ++ bytes) (asciiChar b :: chars) := by
  rw [escapeByte]
  cases he : escape? b with
  | none =>
    have hplain := Chars.plain (isPlain_of_escape?_eq_none hb he) h
    rwa [encodeChar_asciiChar hb] at hplain
  | some sequence =>
    obtain ⟨inside, rfl, hinside⟩ := escaped_of_escape? he
    exact .escape hinside h

/-- What is no control character, quote or backslash is copied. -/
theorem escape?_eq_none (hlow : 0x20 ≤ b.toNat) (hq : b ≠ quote) (hs : b ≠ backslash) :
    escape? b = none := by
  have ne {a : UInt8} (ha : a.toNat < 0x20) : b ≠ a := by
    rintro rfl
    omega
  have hcontrol : isControl b = false :=
    decide_eq_false fun h => Nat.not_lt.2 hlow (UInt8.lt_iff_toNat_lt.1 h)
  rw [escape?, if_neg hq, if_neg hs, if_neg (ne (by decide)), if_neg (ne (by decide)),
    if_neg (ne (by decide)), if_neg (ne (by decide)), if_neg (ne (by decide)), hcontrol]
  rfl

theorem flatMap_escapeByte_encodeChar (h : 0x80 ≤ c.toNat) :
    (String.utf8EncodeChar c).flatMap escapeByte = String.utf8EncodeChar c := by
  refine flatMap_escapeByte_of_copied (List.all_eq_true.2 fun b hb => ?_)
  have hle := Utf8.le_of_mem_encodeChar h hb
  have ne {a : UInt8} (ha : a.toNat < 0x80) : b ≠ a := by
    rintro rfl
    omega
  rw [isCopied, escape?_eq_none (Nat.le_trans (by decide) hle) (ne (by decide)) (ne (by decide))]
  rfl

/-- The units of a character denote it. -/
theorem chars_units (hc : 0x80 ≤ c.toNat) (h : Chars bytes chars) :
    Chars ((units c).flatMap unit ++ bytes) (c :: chars) := by
  have valid : c.toNat < 0xD800 ∨ 0xDFFF < c.toNat ∧ c.toNat < 0x110000 := c.valid
  rw [units]
  split
  · next hn =>
    have hunit : Escaped (letterU :: hex 4 c.toNat) (Char.ofNat c.toNat) :=
      .unit (codeUnit_hex hn) (by omega)
    rw [c.ofNat_toNat] at hunit
    exact .escape hunit h
  · next hn =>
    have hpair : Escaped (letterU :: (hex 4 (0xD800 + (c.toNat - 0x10000) / 0x400) ++
        backslash :: letterU :: hex 4 (0xDC00 + (c.toNat - 0x10000) % 0x400))) _ :=
      .pair (codeUnit_hex (by omega)) (by omega) (codeUnit_hex (by omega)) (by omega)
    have hn : 0x10000 + (0xD800 + (c.toNat - 0x10000) / 0x400 - 0xD800) * 0x400 +
        (0xDC00 + (c.toNat - 0x10000) % 0x400 - 0xDC00) = c.toNat := by omega
    rw [hn, c.ofNat_toNat] at hpair
    have hall := Chars.escape hpair h
    simpa only [List.flatMap_cons, List.flatMap_nil, unit, List.cons_append, List.append_assoc,
      List.append_nil] using hall

theorem escape_of_ascii (asciiOnly : Bool) (hc : c.toNat < 0x80) :
    escape asciiOnly c = escapeByte (UInt8.ofNat c.toNat) := by
  have hbyte : (String.utf8EncodeChar c).flatMap escapeByte = escapeByte (UInt8.ofNat c.toNat) := by
    rw [Utf8.encodeChar_of_ascii hc, List.flatMap_cons, List.flatMap_nil, List.append_nil]
  rw [escape, escapeChar_of_ascii (decide_eq_true hc), ite_self, hbyte]

/-- Beyond ASCII a character is copied, or written as its units. -/
theorem escape_of_not_ascii (asciiOnly : Bool) (hc : 0x80 ≤ c.toNat) :
    escape asciiOnly c =
      if asciiOnly then (units c).flatMap unit else String.utf8EncodeChar c := by
  cases asciiOnly with
  | true =>
    rw [escape, if_pos rfl, escapeChar, escapeChar?, if_neg (by simpa [isAscii] using hc)]
    rfl
  | false =>
    rw [escape, if_neg Bool.false_ne_true, flatMap_escapeByte_encodeChar hc]
    rfl

theorem chars_escape (asciiOnly : Bool) (c : Char) (h : Chars bytes chars) :
    Chars (escape asciiOnly c ++ bytes) (c :: chars) := by
  by_cases hc : c.toNat < 0x80
  · have hlt : (UInt8.ofNat c.toNat).toNat < 0x80 := by
      rwa [toNat_ofNat_of_ascii hc]
    have hbyte := chars_escapeByte hlt h
    rwa [asciiChar_ofNat_toNat hc, ← escape_of_ascii asciiOnly hc] at hbyte
  · have hle : 0x80 ≤ c.toNat := Nat.le_of_not_lt hc
    rw [escape_of_not_ascii asciiOnly hle]
    cases asciiOnly with
    | true => exact chars_units hle h
    | false =>
      have hplain : IsPlain c := by
        refine ⟨Nat.le_trans (by decide) hle, ?_, ?_⟩ <;> rintro rfl <;> exact hc (by decide)
      exact .plain hplain h

/-! ## Whole texts -/

/-- **A quoted text denotes that text, in both ways of escaping.** -/
theorem text_literal (asciiOnly : Bool) (text : String) :
    Text (literal asciiOnly text) text := by
  have hchars (chars : List Char) : Chars (chars.flatMap (escape asciiOnly)) chars := by
    induction chars with
    | nil => exact .nil
    | cons c chars ih => exact chars_escape asciiOnly c ih
  have htext := Text.mk (hchars text.toList)
  rwa [String.ofList_toList] at htext

/-- Bytes that need no escape denote their characters. -/
theorem text_of_plainBytes (h : PlainBytes bytes) :
    Text (quote :: (bytes ++ [quote])) (asciiText bytes) := by
  refine .mk ?_
  induction bytes with
  | nil => exact .nil
  | cons b bytes ih =>
    obtain ⟨hb, hbytes⟩ := PlainBytes.cons_iff.1 h
    simp only [isPlainByte, Bool.and_eq_true, decide_eq_true_eq, bne_iff_ne] at hb
    obtain ⟨⟨⟨hlow, hhigh⟩, hquote⟩, hbackslash⟩ := hb
    have hlt : b.toNat < 0x80 := UInt8.lt_iff_toNat_lt.1 hhigh
    have hcopied : escapeByte b = [b] := by
      rw [escapeByte, escape?_eq_none (UInt8.le_iff_toNat_le.1 hlow) hquote hbackslash]
      rfl
    have hchars := chars_escapeByte hlt (ih hbytes)
    rwa [hcopied] at hchars

end JsonCodec
