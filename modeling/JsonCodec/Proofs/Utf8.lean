/-
UTF-8 is read and written alike: what `next?` takes off the front of a byte string is the encoding
of a character, and every character is taken off where its encoding stands (`next?_eq_some_iff`).

The bytes of one character are a `Sequence`: the ranges of `following` written out, so that the
scalar value of a sequence is arithmetic on byte values from there on.
-/
import Mathlib.Data.List.Forall2
import Mathlib.Tactic.SplitIfs
import JsonCodec.Utf8

namespace JsonCodec.Utf8

open ByteRange

/-- The lead bytes, with the ranges of what follows. -/
inductive Lead (b : UInt8) : List ByteRange → Prop
  | one (h : b.toNat < 0x80) : Lead b []
  | two (h : 0xC2 ≤ b.toNat ∧ b.toNat < 0xE0) : Lead b [continuation]
  | threeLow (h : b.toNat = 0xE0) : Lead b [⟨0xA0, 0xBF⟩, continuation]
  | three (h : 0xE0 < b.toNat ∧ b.toNat < 0xF0) (hs : b.toNat ≠ 0xED) :
    Lead b [continuation, continuation]
  | threeSurrogate (h : b.toNat = 0xED) : Lead b [⟨0x80, 0x9F⟩, continuation]
  | fourLow (h : b.toNat = 0xF0) : Lead b [⟨0x90, 0xBF⟩, continuation, continuation]
  | four (h : 0xF0 < b.toNat ∧ b.toNat < 0xF4) :
    Lead b [continuation, continuation, continuation]
  | fourHigh (h : b.toNat = 0xF4) : Lead b [⟨0x80, 0x8F⟩, continuation, continuation]

theorem following_eq_some_iff {b : UInt8} {ranges : List ByteRange} :
    following b = some ranges ↔ Lead b ranges := by
  unfold following
  simp only [UInt8.lt_iff_toNat_lt, ← UInt8.toNat_inj, UInt8.reduceToNat]
  constructor
  · intro h
    split_ifs at h with h1 h2 h3 h4 h5 h6 h7 h8 h9 <;> cases h
    · exact .one h1
    · exact .two ⟨by omega, h3⟩
    · exact .threeLow h4
    · exact .threeSurrogate h5
    · exact .three ⟨by omega, h6⟩ h5
    · exact .fourLow h7
    · exact .four ⟨by omega, h8⟩
    · exact .fourHigh h9
  · intro h
    cases h <;> repeat (first | rfl | rw [if_pos (by omega)] | rw [if_neg (by omega)])

/-- Bytes that lie in the ranges, one in each. -/
abbrev Fits (ranges : List ByteRange) (tail : Bytes) : Prop :=
  List.Forall₂ (fun r b => r.has b = true) ranges tail

theorem fitting_eq_length_iff {ranges : List ByteRange} {bytes : Bytes} :
    fitting ranges bytes = ranges.length ↔
      ∃ tail rest, bytes = tail ++ rest ∧ Fits ranges tail := by
  induction ranges generalizing bytes with
  | nil => exact ⟨fun _ => ⟨[], bytes, rfl, .nil⟩, fun _ => by simp [fitting]⟩
  | cons r ranges ih =>
    constructor
    · intro h
      cases bytes with
      | nil => simp [fitting] at h
      | cons b bytes =>
        simp only [fitting] at h
        split at h
        · next hb =>
          simp only [List.length_cons, Nat.add_right_cancel_iff] at h
          obtain ⟨tail, rest, rfl, hf⟩ := ih.1 h
          exact ⟨b :: tail, rest, rfl, .cons hb hf⟩
        · simp at h
    · rintro ⟨tail, rest, rfl, hf⟩
      cases hf with
      | cons hb hf =>
        simp only [List.cons_append, fitting, hb, ite_true, List.length_cons,
          Nat.add_right_cancel_iff]
        exact ih.2 ⟨_, rest, rfl, hf⟩

theorem has_iff {r : ByteRange} {b : UInt8} :
    r.has b = true ↔ r.low.toNat ≤ b.toNat ∧ b.toNat ≤ r.high.toNat := by
  simp [has, UInt8.le_iff_toNat_le]

/-- Whether a byte goes on with a sequence. -/
def Continues (b : UInt8) : Prop := 0x80 ≤ b.toNat ∧ b.toNat ≤ 0xBF

/-- The sequences of one character: a lead byte and what follows it. Overlong forms, surrogates
and what lies above U+10FFFF are none. -/
inductive Sequence (lead : UInt8) : Bytes → Prop
  | one (h : lead.toNat < 0x80) : Sequence lead []
  | two {b : UInt8} (h : 0xC2 ≤ lead.toNat ∧ lead.toNat < 0xE0) (hb : Continues b) :
    Sequence lead [b]
  | three {b c : UInt8} (h : 0xE0 ≤ lead.toNat ∧ lead.toNat < 0xF0) (hb : Continues b)
    (hc : Continues c) (overlong : lead.toNat = 0xE0 → 0xA0 ≤ b.toNat)
    (surrogate : lead.toNat = 0xED → b.toNat ≤ 0x9F) : Sequence lead [b, c]
  | four {b c d : UInt8} (h : 0xF0 ≤ lead.toNat ∧ lead.toNat ≤ 0xF4) (hb : Continues b)
    (hc : Continues c) (hd : Continues d) (overlong : lead.toNat = 0xF0 → 0x90 ≤ b.toNat)
    (beyond : lead.toNat = 0xF4 → b.toNat ≤ 0x8F) : Sequence lead [b, c, d]

theorem sequence_iff {lead : UInt8} {tail : Bytes} :
    Sequence lead tail ↔
      ∃ ranges, Lead lead ranges ∧ Fits ranges tail := by
  have hcont {b : UInt8} : continuation.has b = true ↔ Continues b := has_iff
  constructor
  · intro h
    cases h with
    | one h => exact ⟨[], .one h, .nil⟩
    | two h hb => exact ⟨_, .two h, .cons (hcont.2 hb) .nil⟩
    | three h hb hc hl hs =>
      have tail {r b} (h : has r b = true) : Fits [r, continuation] [b, _] :=
        .cons h (.cons (hcont.2 hc) .nil)
      by_cases h1 : lead.toNat = 0xE0
      · exact ⟨_, .threeLow h1, tail (has_iff.2 ⟨hl h1, hb.2⟩)⟩
      by_cases h2 : lead.toNat = 0xED
      · exact ⟨_, .threeSurrogate h2, tail (has_iff.2 ⟨hb.1, hs h2⟩)⟩
      · exact ⟨_, .three (by omega) h2, tail (hcont.2 hb)⟩
    | four h hb hc hd hl hh =>
      have tail {r b} (h : has r b = true) : Fits [r, continuation, continuation] [b, _, _] :=
        .cons h (.cons (hcont.2 hc) (.cons (hcont.2 hd) .nil))
      by_cases h1 : lead.toNat = 0xF0
      · exact ⟨_, .fourLow h1, tail (has_iff.2 ⟨hl h1, hb.2⟩)⟩
      by_cases h2 : lead.toNat = 0xF4
      · exact ⟨_, .fourHigh h2, tail (has_iff.2 ⟨hb.1, hh h2⟩)⟩
      · exact ⟨_, .four (by omega), tail (hcont.2 hb)⟩
  · intro ⟨ranges, hl, hf⟩
    cases hl <;> simp only [List.forall₂_cons_left_iff, List.forall₂_nil_left_iff, hcont] at hf
    case one h => subst hf; exact .one h
    case two h =>
      obtain ⟨b, _, hb, rfl, rfl⟩ := hf
      exact .two h hb
    case three h hs =>
      obtain ⟨b, _, hb, ⟨c, _, hc, rfl, rfl⟩, rfl⟩ := hf
      exact .three (by omega) hb hc (by omega) (by omega)
    case threeLow h =>
      obtain ⟨b, _, hb, ⟨c, _, hc, rfl, rfl⟩, rfl⟩ := hf
      have hb := has_iff.1 hb
      exact .three (by omega) ⟨by simp at hb; omega, hb.2⟩ hc (fun _ => hb.1) (by omega)
    case threeSurrogate h =>
      obtain ⟨b, _, hb, ⟨c, _, hc, rfl, rfl⟩, rfl⟩ := hf
      have hb := has_iff.1 hb
      exact .three (by omega) ⟨hb.1, by simp at hb; omega⟩ hc (by omega) (fun _ => hb.2)
    case four h =>
      obtain ⟨b, _, hb, ⟨c, _, hc, ⟨d, _, hd, rfl, rfl⟩, rfl⟩, rfl⟩ := hf
      exact .four (by omega) hb hc hd (by omega) (by omega)
    case fourLow h =>
      obtain ⟨b, _, hb, ⟨c, _, hc, ⟨d, _, hd, rfl, rfl⟩, rfl⟩, rfl⟩ := hf
      have hb := has_iff.1 hb
      exact .four (by omega) ⟨by simp at hb; omega, hb.2⟩ hc hd (fun _ => hb.1) (by omega)
    case fourHigh h =>
      obtain ⟨b, _, hb, ⟨c, _, hc, ⟨d, _, hd, rfl, rfl⟩, rfl⟩, rfl⟩ := hf
      have hb := has_iff.1 hb
      exact .four (by omega) ⟨hb.1, by simp at hb; omega⟩ hc hd (by omega) (fun _ => hb.2)

theorem next?_eq_some_iff_sequence {bytes rest : Bytes} {c : Char} :
    next? bytes = some (c, rest) ↔
      ∃ lead tail, bytes = lead :: tail ++ rest ∧ Sequence lead tail ∧
        c = Char.ofNat (scalar lead tail) := by
  constructor
  · intro h
    cases bytes with
    | nil => cases h
    | cons lead bytes =>
      simp only [next?] at h
      split at h
      · cases h
      next ranges hr =>
      split at h
      · next hfit =>
        obtain ⟨tail, rest', rfl, hf⟩ := fitting_eq_length_iff.1 hfit
        rw [hf.length_eq, List.take_left, List.drop_left] at h
        cases h
        exact ⟨lead, tail, rfl, sequence_iff.2 ⟨ranges, following_eq_some_iff.1 hr, hf⟩, rfl⟩
      · cases h
  · rintro ⟨lead, tail, rfl, hs, rfl⟩
    obtain ⟨ranges, hl, hf⟩ := sequence_iff.1 hs
    have hfit := fitting_eq_length_iff.2 ⟨tail, rest, rfl, hf⟩
    simp only [List.cons_append, next?, following_eq_some_iff.2 hl, hfit, ite_true]
    rw [hf.length_eq, List.take_left, List.drop_left]

theorem scalar_two (lead b : UInt8) :
    scalar lead [b] = lead.toNat % 32 * 64 + b.toNat % 64 := rfl

theorem scalar_three (lead b c : UInt8) :
    scalar lead [b, c] = (lead.toNat % 16 * 64 + b.toNat % 64) * 64 + c.toNat % 64 := by
  simp [scalar]

theorem scalar_four (lead b c d : UInt8) :
    scalar lead [b, c, d] =
      ((lead.toNat % 8 * 64 + b.toNat % 64) * 64 + c.toNat % 64) * 64 + d.toNat % 64 := by
  simp [scalar]

/-- The character of a sequence is encoded as that sequence. -/
theorem encodeChar_of_sequence {lead : UInt8} {tail : Bytes} (h : Sequence lead tail) :
    String.utf8EncodeChar (Char.ofNat (scalar lead tail)) = lead :: tail := by
  have val {n : Nat} (h : n.isValidChar) : (Char.ofNat n).val.toNat = n := by
    rw [Char.ofNat, dif_pos h]; rfl
  have byte {n : Nat} {b : UInt8} (h : n = b.toNat) : UInt8.ofNat n = b := by
    rw [h, UInt8.ofNat_toNat]
  cases h with
  | one h =>
    have hv : (Char.ofNat lead.toNat).val.toNat = lead.toNat := val (by left; omega)
    simp only [scalar, List.isEmpty_nil, ite_true, List.foldl_nil, String.utf8EncodeChar]
    rw [hv, if_pos (by omega), byte rfl]
  | @two b h hb =>
    have hs := scalar_two lead b
    have := hb.1; have := hb.2
    have hv := val (n := scalar lead [b]) (by left; omega)
    simp only [String.utf8EncodeChar]
    rw [hv, hs, if_neg (by omega), if_pos (by omega), byte (b := lead) (by omega),
      byte (b := b) (by omega)]
  | @three b c h hb hc hl hsur =>
    have hs := scalar_three lead b c
    have := hb.1; have := hb.2; have := hc.1; have := hc.2
    have hv := val (n := scalar lead [b, c]) (by unfold Nat.isValidChar; omega)
    simp only [String.utf8EncodeChar]
    rw [hv, hs, if_neg (by omega), if_neg (by omega), if_pos (by omega),
      byte (b := lead) (by omega), byte (b := b) (by omega), byte (b := c) (by omega)]
  | @four b c d h hb hc hd hl hh =>
    have hs := scalar_four lead b c d
    have := hb.1; have := hb.2; have := hc.1; have := hc.2; have := hd.1; have := hd.2
    have hv := val (n := scalar lead [b, c, d]) (by unfold Nat.isValidChar; omega)
    simp only [String.utf8EncodeChar]
    rw [hv, hs, if_neg (by omega), if_neg (by omega), if_neg (by omega), byte (b := lead) (by omega),
      byte (b := b) (by omega), byte (b := c) (by omega), byte (b := d) (by omega)]

/-- What a character is encoded as is a sequence, and the scalar value is the character's. -/
theorem exists_sequence (c : Char) :
    ∃ lead tail, String.utf8EncodeChar c = lead :: tail ∧ Sequence lead tail ∧
      Char.ofNat (scalar lead tail) = c := by
  have valid : c.val.toNat < 0xD800 ∨ 0xDFFF < c.val.toNat ∧ c.val.toNat < 0x110000 := c.valid
  have back {n : Nat} (h : n = c.val.toNat) : Char.ofNat n = c := by rw [h]; exact c.ofNat_toNat
  have toNat {n : Nat} (h : n < 256) : (UInt8.ofNat n).toNat = n := by
    rw [UInt8.toNat_ofNat', Nat.mod_eq_of_lt h]
  simp only [String.utf8EncodeChar]
  generalize hv : c.val.toNat = v at valid back
  split_ifs with h1 h2 h3
  · have ht := toNat (n := v) (by omega)
    refine ⟨_, _, rfl, .one (by omega), back ?_⟩
    simp only [scalar, List.isEmpty_nil, ite_true, List.foldl_nil, ht]
  · have ht := toNat (n := v / 64 % 0x20 + 0xc0) (by omega)
    have hb := toNat (n := v % 0x40 + 0x80) (by omega)
    refine ⟨_, _, rfl, .two (by omega) ⟨by omega, by omega⟩, back ?_⟩
    rw [scalar_two]
    omega
  · have ht := toNat (n := v / 4096 % 0x10 + 0xe0) (by omega)
    have hb := toNat (n := v / 64 % 0x40 + 0x80) (by omega)
    have hc := toNat (n := v % 0x40 + 0x80) (by omega)
    refine ⟨_, _, rfl, .three (by omega) ⟨by omega, by omega⟩ ⟨by omega, by omega⟩ (by omega)
      (by omega), back ?_⟩
    rw [scalar_three]
    omega
  · have ht := toNat (n := v / 262144 % 0x08 + 0xf0) (by omega)
    have hb := toNat (n := v / 4096 % 0x40 + 0x80) (by omega)
    have hc := toNat (n := v / 64 % 0x40 + 0x80) (by omega)
    have hd := toNat (n := v % 0x40 + 0x80) (by omega)
    refine ⟨_, _, rfl, .four (by omega) ⟨by omega, by omega⟩ ⟨by omega, by omega⟩
      ⟨by omega, by omega⟩ (by omega) (by omega), back ?_⟩
    rw [scalar_four]
    omega

/-- **Reading a character is undoing its encoding.** -/
theorem next?_eq_some_iff {bytes rest : Bytes} {c : Char} :
    next? bytes = some (c, rest) ↔ bytes = String.utf8EncodeChar c ++ rest := by
  rw [next?_eq_some_iff_sequence]
  constructor
  · rintro ⟨lead, tail, rfl, hs, rfl⟩
    rw [encodeChar_of_sequence hs]
  · rintro rfl
    obtain ⟨lead, tail, he, hs, hc⟩ := exists_sequence c
    exact ⟨lead, tail, by rw [he], hs, hc.symm⟩

theorem next?_encodeChar (c : Char) (rest : Bytes) :
    next? (String.utf8EncodeChar c ++ rest) = some (c, rest) := next?_eq_some_iff.2 rfl

/-- Where no character begins, none does before the bytes go on. -/
theorem next?_eq_none_of_append {bytes more : Bytes} (h : next? (bytes ++ more) = none) :
    next? bytes = none := by
  cases hn : next? bytes with
  | none => rfl
  | some found =>
    obtain ⟨c, rest⟩ := found
    rw [next?_eq_some_iff.1 hn, List.append_assoc, next?_encodeChar] at h
    cases h

/-! ## The bytes of a character -/

theorem encodeChar_of_ascii {c : Char} (h : c.toNat < 0x80) :
    String.utf8EncodeChar c = [UInt8.ofNat c.toNat] := by
  simp only [String.utf8EncodeChar]
  exact if_pos (Nat.le_of_lt_succ h)

/-- A character beyond ASCII has no byte of ASCII. -/
theorem le_of_mem_encodeChar {c : Char} (h : 0x80 ≤ c.toNat) {b : UInt8}
    (hb : b ∈ String.utf8EncodeChar c) : 0x80 ≤ b.toNat := by
  have h : 0x80 ≤ c.val.toNat := h
  simp only [String.utf8EncodeChar] at hb
  split_ifs at hb with h1
  · omega
  all_goals
    simp only [List.mem_cons, List.not_mem_nil, or_false] at hb
    rcases hb with rfl | rfl | rfl | rfl <;> simp only [UInt8.toNat_ofNat'] <;> omega

/-! ## Texts -/

theorem decodeOnto_encodeChar (out : String) (c : Char) (rest : Bytes) :
    decodeOnto out (String.utf8EncodeChar c ++ rest) = decodeOnto (out.push c) rest := by
  rw [decodeOnto]
  split
  · next h => rw [next?_encodeChar] at h; cases h
  · next h =>
    rw [next?_encodeChar] at h
    cases h
    rfl

theorem decodeOnto_of_next? {bytes : Bytes} (out : String) (h : next? bytes = none) :
    decodeOnto out bytes = (out, bytes) := by
  rw [decodeOnto]
  split
  · rfl
  · next h' => rw [h] at h'; cases h'

theorem length_decodeOnto_le (out : String) (bytes : Bytes) :
    (decodeOnto out bytes).2.length ≤ bytes.length := by
  fun_induction decodeOnto out bytes with
  | case1 out bytes h => exact Nat.le_refl _
  | case2 out bytes c rest h ih => exact Nat.le_trans ih (Nat.le_of_lt (length_lt_of_next? h))

end JsonCodec.Utf8
