/-
UTF-8: the bytes of a text, the longest text at the front of a byte string, and the reading that
puts U+FFFD for what is not well formed.

A lead byte fixes the ranges that the bytes after it keep to (`following`). The ranges leave out
overlong forms, surrogates and everything above U+10FFFF, so a sequence that fits them is the
one encoding of its character.
-/
import JsonCodec.Bytes

namespace JsonCodec.Utf8

/-- The UTF-8 bytes of a text. -/
def encode (text : String) : Bytes :=
  text.toList.flatMap String.utf8EncodeChar

/-- An interval of bytes, both ends included. -/
structure ByteRange where
  low : UInt8
  high : UInt8

namespace ByteRange

/-- Whether `b` lies in the interval. -/
def has (r : ByteRange) (b : UInt8) : Bool := r.low ≤ b && b ≤ r.high

/-- The bytes that go on with a sequence. -/
def continuation : ByteRange := ⟨0x80, 0xBF⟩

end ByteRange

open ByteRange in
/-- The ranges of the bytes after `lead`; a byte that starts no sequence has none. -/
def following (lead : UInt8) : Option (List ByteRange) :=
  if lead < 0x80 then some []
  else if lead < 0xC2 then none
  else if lead < 0xE0 then some [continuation]
  else if lead = 0xE0 then some [⟨0xA0, 0xBF⟩, continuation]
  else if lead = 0xED then some [⟨0x80, 0x9F⟩, continuation]
  else if lead < 0xF0 then some [continuation, continuation]
  else if lead = 0xF0 then some [⟨0x90, 0xBF⟩, continuation, continuation]
  else if lead < 0xF4 then some [continuation, continuation, continuation]
  else if lead = 0xF4 then some [⟨0x80, 0x8F⟩, continuation, continuation]
  else none

/-- How many bytes at the front lie in the ranges, taken one range a byte. -/
def fitting : List ByteRange → Bytes → Nat
  | r :: ranges, b :: bytes => if r.has b then fitting ranges bytes + 1 else 0
  | _, _ => 0

/-- The scalar value that a lead byte and its continuation bytes spell. -/
def scalar (lead : UInt8) (tail : Bytes) : Nat :=
  let head := if tail.isEmpty then lead.toNat else lead.toNat % (64 >>> tail.length)
  tail.foldl (fun n b => n * 64 + b.toNat % 64) head

/-- The character at the front, and what is left after it. -/
def next? : Bytes → Option (Char × Bytes)
  | [] => none
  | lead :: rest =>
    match following lead with
    | none => none
    | some ranges =>
      let n := ranges.length
      if fitting ranges rest = n then some (Char.ofNat (scalar lead (rest.take n)), rest.drop n)
      else none

theorem length_lt_of_next? {bytes rest : Bytes} {c : Char} (h : next? bytes = some (c, rest)) :
    rest.length < bytes.length := by
  match bytes, h with
  | lead :: tail, h =>
    simp only [next?] at h
    split at h
    · cases h
    · split at h
      · cases h; simp only [List.length_drop, List.length_cons]; omega
      · cases h

/-- Decodes as far as the bytes are well formed, onto the end of `out`; also what is left. -/
def decodeOnto (out : String) (bytes : Bytes) : String × Bytes :=
  match _h : next? bytes with
  | none => (out, bytes)
  | some (c, rest) => decodeOnto (out.push c) rest
termination_by bytes.length
decreasing_by exact length_lt_of_next? _h

/-- The text whose encoding the bytes are. -/
def decode? (bytes : Bytes) : Option String :=
  match decodeOnto "" bytes with
  | (text, []) => some text
  | _ => none

/-- The length of the longest start of a sequence at the front of bytes that begin with none. -/
def brokenLength : Bytes → Nat
  | [] => 0
  | lead :: rest => 1 + fitting ((following lead).getD []) rest

/-- Decodes onto the end of `out`, with one U+FFFD for each longest broken start. -/
def decodeLossyOnto (out : String) (bytes : Bytes) : String :=
  match _h : next? bytes with
  | some (c, rest) => decodeLossyOnto (out.push c) rest
  | none =>
    match bytes with
    | [] => out
    | lead :: rest => decodeLossyOnto (out.push '\uFFFD') ((lead :: rest).drop (brokenLength (lead :: rest)))
termination_by bytes.length
decreasing_by
  · exact length_lt_of_next? _h
  · simp only [brokenLength, List.length_drop, List.length_cons]; omega

/-- The text of bytes that need not be well formed. -/
def decodeLossy (bytes : Bytes) : String := decodeLossyOnto "" bytes

/-- Whether a character begins at the front of the bytes. -/
def startsWithChar (bytes : Bytes) : Bool := (next? bytes).isSome

end JsonCodec.Utf8
