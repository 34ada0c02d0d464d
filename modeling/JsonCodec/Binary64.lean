/-
IEEE 754 binary64 numbers by their bits.

A number is a sign and a magnitude. Below the magnitude of infinity, magnitudes count the
finite numbers from zero upwards: `significand * 2 ^ exponent`. Rounding a quotient therefore
rounds to a whole number of units in its last place and adds: a carry runs into the exponent
field, and past the largest finite number into infinity.
-/
namespace JsonCodec

/-- A binary64 number. -/
structure Binary64 where
  bits : UInt64
deriving DecidableEq, Inhabited

namespace Binary64

/-- What the sign adds to the bits, `2 ^ 63`. -/
def signBit : Nat := 0x8000000000000000

/-- One in the exponent field, and the least significand of a normal number: `2 ^ 52`. -/
def hiddenBit : Nat := 0x10000000000000

/-- The magnitude of infinity; a magnitude above it is no number. -/
def infinityMagnitude : Nat := 0x7FF * hiddenBit

/-- The number with a sign and a magnitude. -/
def ofMagnitude (negative : Bool) (magnitude : Nat) : Binary64 :=
  ⟨UInt64.ofNat (if negative then signBit + magnitude else magnitude)⟩

/-- Whether the sign is minus, which zero can carry too. -/
def isNegative (x : Binary64) : Bool := signBit ≤ x.bits.toNat

/-- The bits without the sign. -/
def magnitude (x : Binary64) : Nat := x.bits.toNat % signBit

def isNaN (x : Binary64) : Bool := infinityMagnitude < x.magnitude

def isFinite (x : Binary64) : Bool := x.magnitude < infinityMagnitude

/-- The two zeros are equal, and NaN equals nothing. -/
def beq (x y : Binary64) : Bool :=
  !x.isNaN && !y.isNaN && (x.bits == y.bits || x.magnitude == 0 && y.magnitude == 0)

instance : BEq Binary64 := ⟨beq⟩

/-- A quiet NaN. -/
def nan : Binary64 := ofMagnitude false (infinityMagnitude + hiddenBit / 2)

/-- The whole number that a finite number is a power of two away from. -/
def significand (x : Binary64) : Nat :=
  if x.magnitude < hiddenBit then x.magnitude else x.magnitude % hiddenBit + hiddenBit

/-- The power of two that goes with the significand. -/
def exponent (x : Binary64) : Int :=
  (max 1 (x.magnitude / hiddenBit) : Nat) - 1075

/-- The whole number nearest to `num / den`; a half goes to the even neighbour. -/
def divNearestEven (num den : Nat) : Nat :=
  let quotient := num / den
  let twice := 2 * (num % den)
  if twice < den then quotient
  else if den < twice then quotient + 1
  else quotient + quotient % 2

/-- The largest `k` with `2 ^ k ≤ num / den`, for positive numbers. -/
def log2Ratio (num den : Nat) : Int :=
  let k : Int := num.log2 - den.log2
  if den <<< k.toNat ≤ num <<< (-k).toNat then k else k - 1

/-- The magnitude nearest to `num / den`. The unit in the last place is `2 ^ unit`. -/
def roundRatio (num den : Nat) : Nat :=
  if num = 0 then 0
  else
    let unit := max (-1074) (log2Ratio num den - 52)
    let units := divNearestEven (num <<< (-unit).toNat) (den <<< unit.toNat)
    min infinityMagnitude ((unit + 1074).toNat * hiddenBit + units)

/-- The number nearest to an integer. -/
def ofInt (z : Int) : Binary64 := ofMagnitude (z < 0) (roundRatio z.natAbs 1)

/-- The number with the value of 32 bits in the single format. -/
def ofSingle (bits : UInt32) : Binary64 :=
  let negative := bits >>> 31 == 1
  let field := (bits >>> 23 &&& 0xFF).toNat
  let fraction := (bits &&& 0x7FFFFF).toNat
  if field = 0xFF then
    if fraction = 0 then ofMagnitude negative infinityMagnitude else nan
  else if field = 0 then ofMagnitude negative (roundRatio fraction (1 <<< 149))
  else ofMagnitude negative (roundRatio ((fraction + 0x800000) <<< field) (1 <<< 150))

end Binary64

end JsonCodec
