/-
What stands between quotes for a text, said of its characters: each has one escape
(`Quoted.escape_eq_iff`), and the escapes stand one behind the other (`Quoted.append_escapes`).

The writers copy in runs. `Quoted.copyRuns` does so by the places of the bytes, as one loop for bytes
and for characters. What it keeps is that all bytes before the place it has come to are written,
escaped, except for those of the run that it is in; so none is left out, written twice or out of turn.
-/
import JsonCodec.Proofs.Escapes

namespace JsonCodec.Quoted

open Ascii

variable {asciiOnly : Bool} {b : UInt8} {c : Char} {bytes : Bytes}

/-! ## The escape of a character -/

/-- The characters that have an escape of two bytes, and the second of these. -/
def shortForms : List (Char × UInt8) :=
  [('"', quote), ('\\', backslash), ('\x08', letterB), ('\t', letterT), ('\n', letterN),
    ('\x0c', letterF), ('\r', letterR)]

/-- The UTF-16 units of a character. -/
inductive IsUtf16 (c : Char) : List Nat → Prop
  | single (h : c.toNat < 0x10000) : IsUtf16 c [c.toNat]
  | pair {high low : Nat} (hh : 0xD800 ≤ high ∧ high ≤ 0xDBFF) (hl : 0xDC00 ≤ low ∧ low ≤ 0xDFFF)
    (hc : c.toNat = 0x10000 + (high - 0xD800) * 0x400 + (low - 0xDC00)) : IsUtf16 c [high, low]

/-- What stands between quotes for a character. -/
inductive IsEscape (asciiOnly : Bool) (c : Char) : Bytes → Prop
  | short {letter : UInt8} (h : (c, letter) ∈ shortForms) :
    IsEscape asciiOnly c [backslash, letter]
  | control (hs : ∀ letter, (c, letter) ∉ shortForms) (hc : c.toNat < 0x20) :
    IsEscape asciiOnly c
      [backslash, letterU, zero, zero, hexDigit (c.toNat / 16), hexDigit c.toNat]
  | units {us : List Nat} (ha : asciiOnly = true) (hc : 0x80 ≤ c.toNat) (hu : IsUtf16 c us) :
    IsEscape asciiOnly c (us.flatMap fun u => backslash :: letterU :: hex 4 u)
  /-- Its UTF-8 bytes. -/
  | own (hs : ∀ letter, (c, letter) ∉ shortForms) (hc : 0x20 ≤ c.toNat)
    (ha : asciiOnly = true → c.toNat < 0x80) : IsEscape asciiOnly c (String.utf8EncodeChar c)

theorem isUtf16_units (c : Char) : IsUtf16 c (units c) := by
  have hvalid : c.toNat < 0xD800 ∨ 0xDFFF < c.toNat ∧ c.toNat < 0x110000 := c.valid
  rw [units]
  split
  · next h => exact .single h
  · next h => exact .pair (by omega) (by omega) (by omega)

theorem IsUtf16.eq_units {us : List Nat} (h : IsUtf16 c us) : us = units c := by
  cases h with
  | single h => rw [units, if_pos h]
  | @pair high low hh hl hc =>
    have hhigh : 0xD800 + (c.toNat - 0x10000) / 0x400 = high := by omega
    have hlow : 0xDC00 + (c.toNat - 0x10000) % 0x400 = low := by omega
    rw [units, if_neg (by omega), hhigh, hlow]

theorem escape_of_mem_shortForms {letter : UInt8} (h : (c, letter) ∈ shortForms) :
    escape asciiOnly c = [backslash, letter] := by
  have hall : ∀ x ∈ shortForms, decide (∀ a, escape a x.1 = [backslash, x.2]) = true :=
    List.all_eq_true.1 (by decide)
  exact of_decide_eq_true (hall _ h) asciiOnly

/-- A byte that has no short form is a control character or copied. -/
theorem escapeByte_of_not_mem (hs : ∀ letter, (asciiChar b, letter) ∉ shortForms) :
    escapeByte b = if isControl b then unit b.toNat else [b] := by
  have ne {a : UInt8} (letter : UInt8) (ha : (asciiChar a, letter) ∈ shortForms) : b ≠ a := by
    rintro rfl
    exact hs letter ha
  rw [escapeByte, escape?, if_neg (ne quote (by decide)), if_neg (ne backslash (by decide)),
    if_neg (ne letterB (by decide)), if_neg (ne letterT (by decide)),
    if_neg (ne letterN (by decide)), if_neg (ne letterF (by decide)),
    if_neg (ne letterR (by decide))]
  split <;> rfl

/-- The first two digits of a control character are zeros. -/
theorem unit_of_lt {n : Nat} (h : n < 0x20) :
    unit n = [backslash, letterU, zero, zero, hexDigit (n / 16), hexDigit n] := by
  have hzero : hexDigit 0 = zero := by decide
  simp only [unit, hex, List.nil_append, List.cons_append]
  rw [show n / 16 / 16 = 0 by omega, Nat.zero_div, hzero]

/-- **A character is written as its escape and as nothing else.** -/
theorem escape_eq_iff : escape asciiOnly c = bytes ↔ IsEscape asciiOnly c bytes := by
  have ascii (hs : ∀ letter, (c, letter) ∉ shortForms) (hc : c.toNat < 0x80) :
      escape asciiOnly c = if c.toNat < 0x20 then unit c.toNat else String.utf8EncodeChar c := by
    rw [← asciiChar_ofNat_toNat hc] at hs
    rw [escape_of_ascii asciiOnly hc, escapeByte_of_not_mem hs, Utf8.encodeChar_of_ascii hc,
      toNat_ofNat_of_ascii hc]
    simp [isControl, UInt8.lt_iff_toNat_lt, toNat_ofNat_of_ascii hc]
  constructor
  · rintro rfl
    by_cases hs : ∃ letter, (c, letter) ∈ shortForms
    · obtain ⟨letter, hs⟩ := hs
      rw [escape_of_mem_shortForms hs]
      exact .short hs
    · have hs := not_exists.1 hs
      by_cases hc : c.toNat < 0x80
      · rw [ascii hs hc]
        split
        · next hlow =>
          rw [unit_of_lt hlow]
          exact .control hs hlow
        · next hlow => exact .own hs (Nat.le_of_not_lt hlow) fun _ => hc
      · have hle := Nat.le_of_not_lt hc
        rw [escape_of_not_ascii asciiOnly hle]
        split
        · next ha => exact .units ha hle (isUtf16_units c)
        · next ha => exact .own hs (Nat.le_trans (by decide) hle) fun h => absurd h ha
  · intro h
    cases h with
    | short h => exact escape_of_mem_shortForms h
    | control hs hc => rw [ascii hs (Nat.lt_trans hc (by decide)), if_pos hc, unit_of_lt hc]
    | units ha hc hu =>
      rw [hu.eq_units, escape_of_not_ascii asciiOnly hc, if_pos ha]
      rfl
    | own hs hc ha =>
      by_cases hlt : c.toNat < 0x80
      · rw [ascii hs hlt, if_neg (Nat.not_lt.2 hc)]
      · rw [escape_of_not_ascii asciiOnly (Nat.le_of_not_lt hlt), if_neg fun h => hlt (ha h)]

/-! ## Copying in runs -/

/-- The bytes from one place up to another, if these are places one behind the other. -/
def slice? (bytes : Bytes) (start stop : Nat) : Option Bytes :=
  if start ≤ stop ∧ stop ≤ bytes.length then some ((bytes.take stop).drop start) else none

/-- Appends `bytes`, escaped, to `out`. What is `ahead` stands for the bytes from `place` on, each
part of it for as many as its width. The run from `start` on has still to be copied. Nothing is
answered if a run is not within the bytes. -/
def copyRuns {ι : Type} (width : ι → Nat) (escape? : ι → Option Bytes) (bytes : Bytes) :
    (start place : Nat) → (ahead : List ι) → (out : Array UInt8) → Option (Array UInt8)
  | start, _, [], out => do
    let run ← slice? bytes start bytes.length
    return out ++ run
  | start, place, x :: ahead, out =>
    match escape? x with
    | none => copyRuns width escape? bytes start (place + width x) ahead out
    | some sequence => do
      let run ← slice? bytes start place
      copyRuns width escape? bytes (place + width x) (place + width x) ahead (out ++ run ++ sequence)

/-- Appends the quoted text to `out`, copying in runs. -/
def appendInRuns (out : Array UInt8) (text : String) (asciiOnly : Bool) : Option (Array UInt8) :=
  let bytes := Utf8.encode text
  let inside :=
    if asciiOnly && !text.toList.all isAscii then
      copyRuns Char.utf8Size escapeChar? bytes 0 0 text.toList (out.push quote)
    else copyRuns (fun _ => 1) escape? bytes 0 0 bytes (out.push quote)
  inside.map (·.push quote)

theorem slice?_append {front : Bytes} {start : Nat} (hs : start ≤ front.length) (after : Bytes) :
    slice? (front ++ after) start front.length = some (front.drop start) := by
  rw [slice?, if_pos ⟨hs, by simp⟩, List.take_left]

/-- **Behind what was there, the run up to the place is copied, and what is ahead is escaped.** -/
theorem copyRuns_eq {ι : Type} {width : ι → Nat} {escape? : ι → Option Bytes} {spelled : ι → Bytes}
    (hwidth : ∀ x, width x = (spelled x).length) (ahead : List ι) {front : Bytes} {start : Nat}
    (hs : start ≤ front.length) (out : Array UInt8) :
    copyRuns width escape? (front ++ ahead.flatMap spelled) start front.length ahead out =
      some (out ++ (front.drop start ++ ahead.flatMap fun x => (escape? x).getD (spelled x))) := by
  induction ahead generalizing front start out with
  | nil =>
    have hslice := slice?_append hs []
    rw [List.append_nil] at hslice
    simp only [copyRuns, List.flatMap_nil, List.append_nil, hslice]
    rfl
  | cons x ahead ih =>
    have hplace : front.length + width x = (front ++ spelled x).length := by
      rw [List.length_append, hwidth]
    have hsplit : front ++ (x :: ahead).flatMap spelled =
        front ++ spelled x ++ ahead.flatMap spelled := by
      rw [List.flatMap_cons, List.append_assoc]
    rw [copyRuns, hplace, hsplit, List.flatMap_cons]
    cases hx : escape? x with
    | none =>
      have hstart : start ≤ (front ++ spelled x).length := by
        rw [List.length_append]
        omega
      have hrest := ih hstart out
      rw [List.drop_append_of_le_length hs, List.append_assoc (front.drop start)] at hrest
      exact hrest
    | some sequence =>
      have hslice : slice? (front ++ spelled x ++ ahead.flatMap spelled) start front.length =
          some (front.drop start) := by
        rw [List.append_assoc, slice?_append hs]
      have hrest := ih (Nat.le_refl (front ++ spelled x).length) (out ++ front.drop start ++ sequence)
      rw [List.drop_length, List.nil_append] at hrest
      simp only [hslice, Option.bind_eq_bind, Option.bind_some, hrest, Option.getD_some]
      simp [← Array.toList_inj]

/-- Copied in runs by their places, a text is written as it is otherwise. -/
theorem appendInRuns_eq (out : Array UInt8) (text : String) (asciiOnly : Bool) :
    appendInRuns out text asciiOnly = some (append out text asciiOnly) := by
  have hbytes (out : Array UInt8) (bytes : Bytes) :
      copyRuns (fun _ => 1) escape? bytes 0 0 bytes out = some (appendBytes out bytes) := by
    have hwidth : ∀ b : UInt8, 1 = [b].length := fun _ => rfl
    have hcopy : copyRuns (fun _ => 1) escape? ([] ++ bytes.flatMap fun b => [b]) 0 0 bytes out =
        some (out ++ bytes.flatMap escapeByte) :=
      copyRuns_eq hwidth bytes (Nat.zero_le ([] : Bytes).length) out
    rw [List.nil_append, List.flatMap_singleton'] at hcopy
    rw [hcopy, Option.some.injEq, ← Array.toList_inj, toList_appendBytes, Array.toList_appendList]
  have hchars (out : Array UInt8) :
      copyRuns Char.utf8Size escapeChar? (Utf8.encode text) 0 0 text.toList out =
        some (appendChars out text.toList) := by
    have hcopy : copyRuns Char.utf8Size escapeChar?
        ([] ++ text.toList.flatMap String.utf8EncodeChar) 0 0 text.toList out =
        some (out ++ text.toList.flatMap escapeChar) :=
      copyRuns_eq (fun c => (String.length_utf8EncodeChar c).symm) text.toList
        (Nat.zero_le ([] : Bytes).length) out
    rw [Utf8.encode, ← List.nil_append (List.flatMap ..), hcopy, Option.some.injEq,
      ← Array.toList_inj, toList_appendChars, Array.toList_appendList]
  rw [appendInRuns, append]
  simp only [hbytes, hchars]
  split <;> rfl

/-- **A quote, the escapes of the characters one behind the other, and a quote are appended for a
text**, where each character has one escape. Copying in runs by their places makes no difference to
that, and no run is outside of the text. -/
theorem append_escapes (out : Array UInt8) (text : String) (asciiOnly : Bool) :
    (append out text asciiOnly).toList =
        out.toList ++ quote :: (text.toList.flatMap (escape asciiOnly) ++ [quote]) ∧
      (∀ c bytes, escape asciiOnly c = bytes ↔ IsEscape asciiOnly c bytes) ∧
      appendInRuns out text asciiOnly = some (append out text asciiOnly) :=
  ⟨toList_append out text asciiOnly, fun _ _ => escape_eq_iff, appendInRuns_eq out text asciiOnly⟩

end JsonCodec.Quoted
