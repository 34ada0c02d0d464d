/-
Number literals: `-?(0|[1-9][0-9]*)(\.[0-9]+)?([eE][+-]?[0-9]+)?`.

A literal with neither fraction nor exponent is an integer and is kept whole. Any other is the
binary64 number nearest to its digits at its exponent, and out of range if that is infinite. An
exponent takes no digits beyond `exponentLimit`: without tens of thousands of other digits,
such a literal is zero or out of range in any case.
-/
import JsonCodec.Binary64.Decimal
import JsonCodec.Document.Cursor
import JsonCodec.Value

namespace JsonCodec

/-- The parts of a number literal. -/
structure NumberLiteral where
  negative : Bool
  /-- The digits before the point. -/
  whole : Bytes
  /-- The digits behind the point. -/
  fraction : Option Bytes
  exponent : Option Int

namespace NumberLiteral

open Ascii

/-- Reads a minus sign, if there is one. -/
def readSign (c : Cursor) : Bool × Cursor :=
  if c.peek = some minus then (true, c.advance 1) else (false, c)

/-- What is wrong where a digit has to stand: the input ends, or the literal is bad at `place`. -/
def noDigit (c : Cursor) (place : Nat) : Fault :=
  if c.atEnd then ⟨.unexpectedEnd, c.pos⟩ else ⟨.invalidNumber, place⟩

/-- Reads the digits before the point. A zero stands alone. -/
def readWhole (start : Nat) (c : Cursor) : Except Fault (Bytes × Cursor) :=
  match c.peek with
  | some b =>
    if b = zero then .ok ([zero], c.advance 1)
    else if isDigit b then .ok (c.span isDigit)
    else .error (noDigit c start)
  | none => .error (noDigit c start)

/-- Reads one digit or more. -/
def readDigits (c : Cursor) : Except Fault (Bytes × Cursor) :=
  match c.span isDigit with
  | ([], _) => .error (noDigit c c.pos)
  | found => .ok found

/-- Reads the point and the digits behind it, if there is a point. -/
def readFraction (c : Cursor) : Except Fault (Option Bytes × Cursor) := do
  if c.peek = some point then
    let (digits, c) ← readDigits (c.advance 1)
    return (some digits, c)
  else return (none, c)

/-- Once an exponent has come to this size, it takes no more digits. -/
def exponentLimit : Nat := 65536

/-- The size of an exponent: the number that its digits spell, up to the first digit that brings
it to the limit. -/
def exponentSize (digits : Bytes) : Nat :=
  digits.foldl (fun n b => if n < exponentLimit then n * 10 + digitValue b else n) 0

/-- Reads the exponent, if there is one. -/
def readExponent (c : Cursor) : Except Fault (Option Int × Cursor) := do
  if c.peek = some letterE ∨ c.peek = some capitalE then
    let c := c.advance 1
    let (negative, c) :=
      if c.peek = some plus then (false, c.advance 1) else readSign c
    let (digits, c) ← readDigits c
    let size : Int := exponentSize digits
    return (some (if negative then -size else size), c)
  else return (none, c)

/-- Reads the literal at a cursor. -/
def parts (start : Cursor) : Except Fault (NumberLiteral × Cursor) := do
  let (negative, c) := readSign start
  let (whole, c) ← readWhole start.pos c
  let (fraction, c) ← readFraction c
  let (exponent, c) ← readExponent c
  return (⟨negative, whole, fraction, exponent⟩, c)

/-- The decimal that a literal spells, without its sign. -/
def decimal (n : NumberLiteral) : Decimal :=
  let fraction := n.fraction.getD []
  ⟨Digits.value (n.whole ++ fraction), n.exponent.getD 0 - fraction.length⟩

/-- The value of a literal, unless that is out of range. -/
def value? (n : NumberLiteral) : Option Value :=
  if n.fraction.isNone && n.exponent.isNone then
    let size : Int := Digits.value n.whole
    some (Value.ofInt (if n.negative then -size else size))
  else
    let x := n.decimal.toBinary64 n.negative
    if x.isFinite then some (.float x) else none

/-- Reads the literal at the cursor. A malformed one leaves the cursor where it was. -/
def read : ReadM Value := fun start =>
  match parts start with
  | .error fault => .error fault start
  | .ok (literal, c) =>
    match literal.value? with
    | some v => .ok v c
    | none => .error ⟨.numberOutOfRange, start.pos⟩ c

end NumberLiteral

end JsonCodec
