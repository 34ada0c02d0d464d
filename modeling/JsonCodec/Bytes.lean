/-
Byte strings, and the ASCII bytes that the JSON grammar gives a meaning to.
-/
namespace JsonCodec

/-- A byte string. -/
abbrev Bytes := List UInt8

namespace Ascii

abbrev backspace : UInt8 := 0x08
abbrev tab : UInt8 := 0x09
abbrev lineFeed : UInt8 := 0x0A
abbrev formFeed : UInt8 := 0x0C
abbrev carriageReturn : UInt8 := 0x0D
abbrev space : UInt8 := 0x20
abbrev quote : UInt8 := 0x22
abbrev plus : UInt8 := 0x2B
abbrev comma : UInt8 := 0x2C
abbrev minus : UInt8 := 0x2D
abbrev point : UInt8 := 0x2E
abbrev slash : UInt8 := 0x2F
abbrev zero : UInt8 := 0x30
abbrev colon : UInt8 := 0x3A
abbrev capitalE : UInt8 := 0x45
abbrev capitalT : UInt8 := 0x54
abbrev capitalZ : UInt8 := 0x5A
abbrev bracketOpen : UInt8 := 0x5B
abbrev backslash : UInt8 := 0x5C
abbrev bracketClose : UInt8 := 0x5D
abbrev letterB : UInt8 := 0x62
abbrev letterE : UInt8 := 0x65
abbrev letterF : UInt8 := 0x66
abbrev letterN : UInt8 := 0x6E
abbrev letterR : UInt8 := 0x72
abbrev letterT : UInt8 := 0x74
abbrev letterU : UInt8 := 0x75
abbrev braceOpen : UInt8 := 0x7B
abbrev braceClose : UInt8 := 0x7D

/-- The blanks that may stand between tokens: space, tab, line feed, carriage return. -/
def isBlank (b : UInt8) : Bool :=
  b == space || b == tab || b == lineFeed || b == carriageReturn

/-- The bytes `0` to `9`. -/
def isDigit (b : UInt8) : Bool := 0x30 ≤ b && b ≤ 0x39

/-- The control characters, which a string literal may not hold as they are. -/
def isControl (b : UInt8) : Bool := b < 0x20

/-- The ASCII digit for `n`, read modulo ten. -/
def digit (n : Nat) : UInt8 := UInt8.ofNat (0x30 + n % 10)

/-- The value of a decimal digit. -/
def digitValue (b : UInt8) : Nat := b.toNat - 0x30

/-- The lower-case hexadecimal digit for `n`, read modulo sixteen. -/
def hexDigit (n : Nat) : UInt8 :=
  let n := n % 16
  UInt8.ofNat (if n < 10 then 0x30 + n else 0x57 + n)

/-- The value of a hexadecimal digit of either case. -/
def hexValue? (b : UInt8) : Option Nat :=
  if isDigit b then some (b.toNat - 0x30)
  else if 0x61 ≤ b && b ≤ 0x66 then some (b.toNat - 0x57)
  else if 0x41 ≤ b && b ≤ 0x46 then some (b.toNat - 0x37)
  else none

/-- The lowest `width` hexadecimal digits of `n`, highest first. -/
def hex : (width n : Nat) → Bytes
  | 0, _ => []
  | width + 1, n => hex width (n / 16) ++ [hexDigit n]

end Ascii

end JsonCodec
