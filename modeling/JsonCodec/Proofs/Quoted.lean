/-
A quoted text is a quote, the escapes of its characters one after the other, and a quote.
-/
import JsonCodec.Proofs.Utf8
import JsonCodec.Quoted

namespace JsonCodec.Quoted

open Ascii

/-- A character as it stands between quotes. -/
def escape (asciiOnly : Bool) (c : Char) : Bytes :=
  if asciiOnly then escapeChar c else (String.utf8EncodeChar c).flatMap escapeByte

/-- A text between quotes. -/
def literal (asciiOnly : Bool) (text : String) : Bytes :=
  quote :: (text.toList.flatMap (escape asciiOnly) ++ [quote])

/-- The two writers agree on ASCII. -/
theorem escapeChar_of_ascii {c : Char} (h : isAscii c = true) :
    escapeChar c = (String.utf8EncodeChar c).flatMap escapeByte := by
  have hc : c.toNat < 0x80 := of_decide_eq_true h
  rw [escapeChar, escapeChar?, if_pos h, Utf8.encodeChar_of_ascii hc]
  simp [escapeByte]

/-- **The loops, and the way around one of them, write the escapes of the characters.** -/
theorem toList_append (out : Array UInt8) (text : String) (asciiOnly : Bool) :
    (append out text asciiOnly).toList = out.toList ++ literal asciiOnly text := by
  have hbytes : (appendBytes (out.push quote) (Utf8.encode text)).toList =
      out.toList ++ quote :: text.toList.flatMap (escape false) := by
    rw [toList_appendBytes, Array.toList_push, Utf8.encode, List.flatMap_assoc, List.append_assoc]
    rfl
  simp only [append, Array.toList_push, literal]
  cases asciiOnly with
  | false =>
    rw [Bool.false_and, if_neg Bool.false_ne_true, hbytes, List.append_assoc]
    rfl
  | true =>
    rw [Bool.true_and]
    cases ha : text.toList.all isAscii with
    | false =>
      rw [if_pos (by decide), toList_appendChars, Array.toList_push, List.append_assoc, List.append_assoc]
      rfl
    | true =>
      have hescape : text.toList.flatMap (escape true) = text.toList.flatMap (escape false) := by
        refine List.flatMap_congr fun c hc => ?_
        exact escapeChar_of_ascii (List.all_eq_true.1 ha c hc)
      rw [if_neg (by decide), hbytes, hescape, List.append_assoc]
      rfl

theorem append_eq (out : Array UInt8) (text : String) (asciiOnly : Bool) :
    append out text asciiOnly = out ++ literal asciiOnly text := by
  rw [← Array.toList_inj, toList_append, Array.toList_appendList]

end JsonCodec.Quoted
