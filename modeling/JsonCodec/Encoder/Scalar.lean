/-
The text of numbers under given options.
-/
import JsonCodec.Binary64.Decimal
import JsonCodec.BigInt
import JsonCodec.EncodeError
import JsonCodec.Limits
import JsonCodec.Options
import JsonCodec.Utf8

namespace JsonCodec.Scalar

/-- Whether every binary64 reader keeps the integer. -/
def isSafe (z : Int) : Bool := -Limits.maxSafeInteger ≤ z && z ≤ Limits.maxSafeInteger

/-- The digits of a 64-bit integer. -/
def int64 (n : Int64) : Bytes := Digits.ofInt n.toInt

/-- The digits of an integer, which may have to be a safe one. -/
def int (o : Options) (n : Int64) : Except EncodeError Bytes :=
  if o.strictInteger && !isSafe n.toInt then .error .integerOutOfRange else .ok (int64 n)

/-- The digits of an integer that is never a safe one. -/
def bigInt (o : Options) (n : BigInt) : Except EncodeError Bytes :=
  if o.strictInteger then .error .integerOutOfRange else .ok n.text

/-- Which of the floats without a number it is. -/
def nonFinite (x : Binary64) : NonFinite :=
  if x.isNaN then .nan else if x.isNegative then .negInfinity else .infinity

/-- The shortest text that reads back, or the name of what is no number, where that is allowed. -/
def float (o : Options) (x : Binary64) : Except EncodeError Bytes :=
  if x.isFinite then .ok x.text
  else if o.allowNonFinite then .ok (Utf8.encode (nonFinite x).name)
  else .error (.nonFiniteFloat (nonFinite x))

end JsonCodec.Scalar
