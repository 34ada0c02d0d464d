/-
Integers that need more than 64 bits.
-/
import JsonCodec.Binary64
import JsonCodec.Digits

namespace JsonCodec

/-- Whether an integer is one of the 64-bit signed ones. -/
def fitsInt64 (z : Int) : Bool := Int64.minValue.toInt ≤ z && z ≤ Int64.maxValue.toInt

/-- An integer kept whole, whatever its size. -/
structure BigInt where
  value : Int
deriving DecidableEq

namespace BigInt

/-- The digits of a text, without its minus sign. -/
def unsigned (text : Bytes) : Bytes :=
  if text.head? = some Ascii.minus then text.drop 1 else text

/-- The integer that a text without sign or with a minus sign spells. -/
def spelled (text : Bytes) : Int :=
  let size : Int := Digits.value (unsigned text)
  if text.head? = some Ascii.minus then -size else size

/-- Reads the canonical text of an integer outside the 64-bit range, and nothing else. -/
def parse? (text : Bytes) : Option BigInt :=
  if Digits.isCanonical (unsigned text) && !fitsInt64 (spelled text) then some ⟨spelled text⟩
  else none

def isNegative (big : BigInt) : Bool := big.value < 0

/-- The canonical decimal text. -/
def text (big : BigInt) : Bytes := Digits.ofInt big.value

/-- The nearest binary64 number, which may be infinite. -/
def toBinary64 (big : BigInt) : Binary64 := Binary64.ofInt big.value

end BigInt

end JsonCodec
