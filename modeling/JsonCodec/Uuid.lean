/-
UUIDs: 128 bits, written in lower-case hexadecimal in groups of 8, 4, 4, 4 and 12 digits.

This is the hyphenated text that the standard gives and that UUIDs are shown as by default. Nothing
else is asked of a UUID: its version and variant are bits like the others.
-/
import JsonCodec.Bytes

namespace JsonCodec

/-- A 128-bit identifier. -/
structure Uuid where
  bits : BitVec 128
deriving DecidableEq

namespace Uuid

open Ascii in
/-- The hyphenated text. -/
def text (id : Uuid) : Bytes :=
  let digits := hex 32 id.bits.toNat
  digits.take 8 ++ minus :: (digits.drop 8).take 4 ++ minus :: (digits.drop 12).take 4 ++
    minus :: (digits.drop 16).take 4 ++ minus :: digits.drop 20

end Uuid

end JsonCodec
