/-
String literals.

The reader takes the bytes up to the next quote or backslash at once: they are decoded as far as
the first control character, and a backslash is then decoded with what follows it. Offsets inside
an escape count from its backslash.
-/
import JsonCodec.Document.Cursor

namespace JsonCodec

/-- What the bytes after a backslash come to. -/
inductive Escape where
  /-- A character, and how many bytes after the backslash it takes. -/
  | char (c : Char) (length : Nat)
  /-- A fault at the offset `place`, found by a reader that had come to the offset `stop`. -/
  | bad (reason : Reason) (place stop : Nat)
  /-- The input ends behind the backslash. -/
  | cut

namespace Escape

open Ascii

/-- The unit that four hexadecimal digits at the front spell. -/
def unit? : Bytes → Option Nat
  | a :: b :: c :: d :: _ => do
    return (((← hexValue? a) * 16 + (← hexValue? b)) * 16 + (← hexValue? c)) * 16 + (← hexValue? d)
  | _ => none

def isHighSurrogate (unit : Nat) : Bool := 0xD800 ≤ unit && unit ≤ 0xDBFF

def isLowSurrogate (unit : Nat) : Bool := 0xDC00 ≤ unit && unit ≤ 0xDFFF

/-- The character of a surrogate pair. -/
def joined (high low : Nat) : Char :=
  Char.ofNat (0x10000 + (high - 0xD800) * 0x400 + (low - 0xDC00))

/-- Joins a high surrogate with the escape of a low one that has to follow it. -/
def readLow (high : Nat) (rest : Bytes) : Escape :=
  if [backslash, letterU].isPrefixOf rest then
    match unit? (rest.drop 2) with
    | none => .bad .invalidEscape 6 8
    | some low =>
      if isLowSurrogate low then .char (joined high low) 11 else .bad .unpairedSurrogate 0 12
  else .bad .unpairedSurrogate 0 6

/-- Reads the digits behind `\u`. -/
def readUnit (digits : Bytes) : Escape :=
  match unit? digits with
  | none => .bad .invalidEscape 0 2
  | some unit =>
    if isHighSurrogate unit then readLow unit (digits.drop 4)
    else if isLowSurrogate unit then .bad .unpairedSurrogate 0 6
    else .char (Char.ofNat unit) 5

/-- The character that a letter behind a backslash stands for. -/
def short? (letter : UInt8) : Option Char :=
  if letter = quote then some '"'
  else if letter = backslash then some '\\'
  else if letter = slash then some '/'
  else if letter = letterB then some '\x08'
  else if letter = letterF then some '\x0c'
  else if letter = letterN then some '\n'
  else if letter = letterR then some '\r'
  else if letter = letterT then some '\t'
  else none

/-- Reads what follows a backslash. -/
def read : Bytes → Escape
  | [] => .cut
  | letter :: rest =>
    if letter = letterU then readUnit rest
    else
      match short? letter with
      | some c => .char c 1
      | none => .bad .invalidEscape 0 2

end Escape

namespace StringLiteral

open Ascii

/-- The bytes that neither end a literal nor start an escape. -/
def isRun (b : UInt8) : Bool := b != quote && b != backslash

/-- Decodes a run that starts at `pos` onto the end of `out`. The bytes before its first control
character have to be UTF-8, and then there has to be none. -/
def decodeRun (out : String) (pos : Nat) (run : Bytes) : Except Fault String :=
  let clean := run.takeWhile (!isControl ·)
  match Utf8.decodeOnto out clean with
  | (out, []) =>
    if clean.length < run.length then .error ⟨.controlCharacter, pos + clean.length⟩ else .ok out
  | (_, stuck) => .error ⟨.invalidUtf8, pos + (clean.length - stuck.length)⟩

/-- Reads on from inside the literal that was opened at `opened`. -/
def body (opened pos : Nat) (out : String) (bytes : Bytes) : EStateM.Result Fault Cursor String :=
  let run := bytes.takeWhile isRun
  match decodeRun out pos run with
  | .error fault => .error fault ⟨pos, bytes⟩
  | .ok out =>
    match _h : bytes.dropWhile isRun with
    | [] => .error ⟨.unterminatedString, opened⟩ ⟨pos, bytes⟩
    | b :: after =>
      let mark := pos + run.length
      if b = quote then .ok out ⟨mark + 1, after⟩
      else
        match Escape.read after with
        | .char c length => body opened (mark + 1 + length) (out.push c) (after.drop length)
        | .bad reason place stop =>
          .error ⟨reason, mark + place⟩ ((Cursor.mk mark (b :: after)).advance stop)
        | .cut => .error ⟨.unterminatedString, opened⟩ ⟨mark, b :: after⟩
termination_by bytes.length
decreasing_by
  have h := (List.dropWhile_sublist (l := bytes) isRun).length_le
  rw [_h, List.length_cons] at h
  rw [List.length_drop]
  omega

/-- Reads the literal whose opening quote is at the cursor. -/
def read : ReadM String := fun c =>
  let inside := c.advance 1
  body c.pos inside.pos "" inside.rest

end StringLiteral

end JsonCodec
