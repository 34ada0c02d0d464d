/-
Text between quotes.

A quote, a backslash and the control characters are escaped. All else is copied as it is, or, where
only ASCII is wanted, written as its UTF-16 units. The writers copy the longest run that needs no
escape, then write one escape, and go on behind it.
-/
import JsonCodec.Bytes
import JsonCodec.Utf8

namespace JsonCodec.Quoted

open Ascii

/-- The escape of a UTF-16 unit. -/
def unit (n : Nat) : Bytes := backslash :: letterU :: hex 4 n

/-- The escape of a byte that is not copied. -/
def escape? (b : UInt8) : Option Bytes :=
  if b = quote then some [backslash, quote]
  else if b = backslash then some [backslash, backslash]
  else if b = backspace then some [backslash, letterB]
  else if b = tab then some [backslash, letterT]
  else if b = lineFeed then some [backslash, letterN]
  else if b = formFeed then some [backslash, letterF]
  else if b = carriageReturn then some [backslash, letterR]
  else if isControl b then some (unit b.toNat)
  else none

/-- Whether a byte is copied. -/
def isCopied (b : UInt8) : Bool := (escape? b).isNone

/-- Appends bytes, escaped, to `out`. -/
def appendBytes (out : Array UInt8) (bytes : Bytes) : Array UInt8 :=
  let run := bytes.takeWhile isCopied
  match _h : bytes.dropWhile isCopied with
  | [] => out ++ run
  | b :: after => appendBytes (out ++ run ++ (escape? b).getD []) after
termination_by bytes.length
decreasing_by
  have h := (List.dropWhile_sublist (l := bytes) isCopied).length_le
  rw [_h, List.length_cons] at h
  omega

/-- A byte as it stands between quotes. -/
def escapeByte (b : UInt8) : Bytes := (escape? b).getD [b]

/-- A run that is copied stands for itself. -/
theorem flatMap_escapeByte_of_copied {run : Bytes} (h : run.all isCopied = true) :
    run.flatMap escapeByte = run := by
  induction run with
  | nil => rfl
  | cons b run ih =>
    simp only [List.all_cons, Bool.and_eq_true, isCopied, Option.isNone_iff_eq_none] at h
    rw [List.flatMap_cons, ih h.2, escapeByte, h.1]
    rfl

/-- The byte writer appends the escapes of the bytes one after the other. -/
theorem toList_appendBytes (out : Array UInt8) (bytes : Bytes) :
    (appendBytes out bytes).toList = out.toList ++ bytes.flatMap escapeByte := by
  fun_induction appendBytes out bytes with
  | case1 out bytes run h =>
    have hsplit := List.takeWhile_append_dropWhile (p := isCopied) (l := bytes)
    rw [h, List.append_nil] at hsplit
    have hcopied := flatMap_escapeByte_of_copied (List.all_takeWhile (p := isCopied) (l := bytes))
    rw [hsplit] at hcopied
    simp only [Array.toList_appendList, run, hsplit, hcopied]
  | case2 out bytes run b after h ih =>
    have hsplit := List.takeWhile_append_dropWhile (p := isCopied) (l := bytes)
    have hcopied := flatMap_escapeByte_of_copied (List.all_takeWhile (p := isCopied) (l := bytes))
    have hb : isCopied b = false := by
      have := List.head?_dropWhile_not isCopied bytes
      rw [h] at this
      simpa using this
    have hescape : escapeByte b = (escape? b).getD [] := by
      cases he : escape? b with
      | none => simp [isCopied, he] at hb
      | some e => rw [escapeByte, he]; rfl
    rw [ih, ← hescape]
    conv => rhs; rw [← hsplit, h, List.flatMap_append, hcopied, List.flatMap_cons]
    simp only [Array.toList_appendList, run, List.append_assoc]

def isAscii (c : Char) : Bool := c.toNat < 0x80

/-- The UTF-16 units of a character. -/
def units (c : Char) : List Nat :=
  if c.toNat < 0x10000 then [c.toNat]
  else [0xD800 + (c.toNat - 0x10000) / 0x400, 0xDC00 + (c.toNat - 0x10000) % 0x400]

/-- The escape of a character that is not copied where only ASCII is wanted. -/
def escapeChar? (c : Char) : Option Bytes :=
  if isAscii c then escape? (UInt8.ofNat c.toNat) else some ((units c).flatMap unit)

/-- Whether a character is copied where only ASCII is wanted. -/
def isCopiedChar (c : Char) : Bool := (escapeChar? c).isNone

/-- Appends characters, escaped down to ASCII, to `out`. -/
def appendChars (out : Array UInt8) (chars : List Char) : Array UInt8 :=
  let run := (chars.takeWhile isCopiedChar).flatMap String.utf8EncodeChar
  match _h : chars.dropWhile isCopiedChar with
  | [] => out ++ run
  | c :: after => appendChars (out ++ run ++ (escapeChar? c).getD []) after
termination_by chars.length
decreasing_by
  have h := (List.dropWhile_sublist (l := chars) isCopiedChar).length_le
  rw [_h, List.length_cons] at h
  omega

/-- A character as it stands between quotes where only ASCII is wanted. -/
def escapeChar (c : Char) : Bytes := (escapeChar? c).getD (String.utf8EncodeChar c)

theorem flatMap_escapeChar_of_copied {run : List Char} (h : run.all isCopiedChar = true) :
    run.flatMap escapeChar = run.flatMap String.utf8EncodeChar := by
  induction run with
  | nil => rfl
  | cons c run ih =>
    simp only [List.all_cons, Bool.and_eq_true, isCopiedChar, Option.isNone_iff_eq_none] at h
    rw [List.flatMap_cons, ih h.2, escapeChar, h.1, List.flatMap_cons]
    rfl

/-- The character writer appends the escapes of the characters one after the other. -/
theorem toList_appendChars (out : Array UInt8) (chars : List Char) :
    (appendChars out chars).toList = out.toList ++ chars.flatMap escapeChar := by
  fun_induction appendChars out chars with
  | case1 out chars run h =>
    have hsplit := List.takeWhile_append_dropWhile (p := isCopiedChar) (l := chars)
    rw [h, List.append_nil] at hsplit
    have hcopied :=
      flatMap_escapeChar_of_copied (List.all_takeWhile (p := isCopiedChar) (l := chars))
    rw [hsplit] at hcopied
    simp only [Array.toList_appendList, run, hsplit, hcopied]
  | case2 out chars run c after h ih =>
    have hsplit := List.takeWhile_append_dropWhile (p := isCopiedChar) (l := chars)
    have hcopied :=
      flatMap_escapeChar_of_copied (List.all_takeWhile (p := isCopiedChar) (l := chars))
    have hc : isCopiedChar c = false := by
      have := List.head?_dropWhile_not isCopiedChar chars
      rw [h] at this
      simpa using this
    have hescape : escapeChar c = (escapeChar? c).getD [] := by
      cases he : escapeChar? c with
      | none => simp [isCopiedChar, he] at hc
      | some e => rw [escapeChar, he]; rfl
    rw [ih, ← hescape]
    conv => rhs; rw [← hsplit, h, List.flatMap_append, hcopied, List.flatMap_cons]
    simp only [Array.toList_appendList, run, List.append_assoc]

/-- Appends the quoted text to `out`. A text in ASCII needs no regard to `asciiOnly`. -/
def append (out : Array UInt8) (text : String) (asciiOnly : Bool) : Array UInt8 :=
  let inside :=
    if asciiOnly && !text.toList.all isAscii then appendChars (out.push quote) text.toList
    else appendBytes (out.push quote) (Utf8.encode text)
  inside.push quote

end JsonCodec.Quoted
