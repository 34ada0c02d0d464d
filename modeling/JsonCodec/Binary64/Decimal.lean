/-
Decimal numbers and binary64: reading, and the fewest digits that read back.

A finite binary64 number is itself a decimal. `shortest` cuts that decimal after one digit, two
digits and so on, and takes the first cut where one of the two neighbours on that grid reads back
as the number. The last cut keeps every digit, so what it answers always reads back.
-/
import JsonCodec.Binary64
import JsonCodec.Digits

namespace JsonCodec

/-- The number `coefficient * 10 ^ exponent`. -/
structure Decimal where
  coefficient : Nat
  exponent : Int
deriving DecidableEq

namespace Decimal

open Digits (tenPow)

/-- The magnitude nearest to a decimal. From `10 ^ 309` on that is infinity, and below
`10 ^ -324` it is zero; the coefficient has at most `log2 + 1` digits. -/
def toMagnitude (d : Decimal) : Nat :=
  if d.coefficient = 0 ∨ d.exponent + (d.coefficient.log2 + 1) ≤ -324 then 0
  else if 309 ≤ d.exponent then Binary64.infinityMagnitude
  else Binary64.roundRatio (d.coefficient * tenPow d.exponent.toNat) (tenPow (-d.exponent).toNat)

/-- The binary64 number nearest to a decimal with a sign. -/
def toBinary64 (negative : Bool) (d : Decimal) : Binary64 :=
  Binary64.ofMagnitude negative d.toMagnitude

/-- The decimal without its last `k` digits. -/
def cut (d : Decimal) (k : Nat) : Decimal :=
  ⟨d.coefficient / tenPow k, d.exponent + k⟩

/-- The next decimal of the same exponent. -/
def next (d : Decimal) : Decimal := { d with coefficient := d.coefficient + 1 }

/-- The neighbour of `d` with `k` digits fewer that reads as `magnitude`. Of two the nearer one
is taken, and half way between them the larger. -/
def neighbour? (d : Decimal) (magnitude k : Nat) : Option Decimal :=
  let below := d.cut k
  let above := below.next
  if below.toMagnitude = magnitude then
    if above.toMagnitude = magnitude ∧ tenPow k ≤ 2 * (d.coefficient % tenPow k) then some above
    else some below
  else if above.toMagnitude = magnitude then some above
  else none

/-- The first neighbour that reads as `magnitude`, with at most `k` digits cut. -/
def shortestWithin (d : Decimal) (magnitude : Nat) : (k : Nat) → Decimal
  | 0 => d
  | k + 1 => (d.neighbour? magnitude (k + 1)).getD (d.shortestWithin magnitude k)

end Decimal

namespace Binary64

/-- The exact value of a finite number, without its sign. -/
def toDecimal (x : Binary64) : Decimal :=
  if 0 ≤ x.exponent then ⟨x.significand <<< x.exponent.toNat, 0⟩
  else ⟨x.significand * Nat.pow 5 (-x.exponent).toNat, x.exponent⟩

/-- The decimal with the fewest digits that reads back as the magnitude of a finite number. -/
def shortest (x : Binary64) : Decimal :=
  let exact := x.toDecimal
  exact.shortestWithin x.magnitude ((Digits.ofNat exact.coefficient).length - 1)

/-- Where a number is written without an exponent: its first digit stands at a power of ten
from `low` to `high`. -/
structure Positional where
  low : Int
  high : Int

/-- From `10 ^ -4` to below `10 ^ 16` the point is in its place. -/
def positional : Positional := ⟨-4, 15⟩

open Ascii in
/-- Digits with the point after the first `before` of them, filled up with zeros on either side;
at least one digit stands on each side of the point. -/
def placePoint (digits : Bytes) (before : Int) : Bytes :=
  if before ≤ 0 then [zero, point] ++ List.replicate (-before).toNat zero ++ digits
  else if before < digits.length then
    digits.take before.toNat ++ point :: digits.drop before.toNat
  else digits ++ List.replicate (before.toNat - digits.length) zero ++ [point, zero]

/-- Digits in front of an exponent, with the point after the first if there are more. -/
def withExponent (digits : Bytes) (exponent : Int) : Bytes :=
  let mantissa := match digits with
    | first :: second :: more => first :: Ascii.point :: second :: more
    | _ => digits
  mantissa ++ Ascii.letterE :: Digits.ofInt exponent

/-- Digits without the zeros at their end. -/
def trimZeros (digits : Bytes) : Bytes :=
  (digits.reverse.dropWhile (· == Ascii.zero)).reverse

/-- The text of a decimal: in place, or with an exponent. -/
def layout (d : Decimal) : Bytes :=
  let all := Digits.ofNat d.coefficient
  let digits := trimZeros all
  let top : Int := all.length + d.exponent - 1
  if d.coefficient = 0 then placePoint [] 0 ++ [Ascii.zero]
  else if positional.low ≤ top ∧ top ≤ positional.high then placePoint digits (top + 1)
  else withExponent digits top

/-- The text of a finite number. -/
def text (x : Binary64) : Bytes :=
  let digits := layout x.shortest
  if x.isNegative then Ascii.minus :: digits else digits

end Binary64

end JsonCodec
