/-
Reading a document: blanks, one value, blanks, and nothing else.

A value is read by descent. `levels` is how many brackets may still open inside one another, so
the descent ends; the items of an array and the members of an object take at least a byte each,
so as many turns as the document has bytes are enough for them.
-/
import JsonCodec.Document.Collector
import JsonCodec.Document.NumberLiteral
import JsonCodec.Document.StringLiteral
import JsonCodec.Limits

namespace JsonCodec.Document

open Ascii ReadM

/-- How deep and how large a document may be. -/
structure Bounds where
  maxDepth : Nat := Limits.maxDepth
  maxInputSize : Nat := Limits.maxInputSize
deriving DecidableEq, Inhabited

/-- Reads a fixed word. A document that ends inside it is cut short; all else is no value. -/
def word (text : Bytes) (value : Value) : ReadM Value := fun c =>
  match c.eat? text with
  | some c => .ok value c
  | none =>
    if c.rest.isPrefixOf text then .error ⟨.unexpectedEnd, c.pos + c.rest.length⟩ c
    else .error ⟨.expectedValue, c.pos⟩ c

/-- Reads the value at the cursor, given how to read an array and an object. -/
def valueWith (array object : ReadM Value) : ReadM Value := do
  skipBlanks
  match ← peek with
  | none => unexpected .expectedValue
  | some b =>
    if b = braceOpen then object
    else if b = bracketOpen then array
    else if b = quote then return .str (← StringLiteral.read)
    else if b = minus ∨ isDigit b then NumberLiteral.read
    else if b = letterT then word (Utf8.encode "true") (.bool true)
    else if b = letterF then word (Utf8.encode "false") (.bool false)
    else if b = letterN then word (Utf8.encode "null") .null
    else unexpected .expectedValue

/-- Reads items up to the closing bracket, in at most `turns` turns. -/
def items (item : ReadM Value) : (turns : Nat) → Array Value → ReadM Value
  | 0, _ => unexpected .expectedValue
  | turns + 1, done => do
    let v ← item
    skipBlanks
    let next ← peek
    if next = some comma then
      advance 1
      items item turns (done.push v)
    else if next = some bracketClose then
      advance 1
      return .array (done.push v).toList
    else unexpected .expectedItemEnd

/-- Reads the array whose bracket is at the cursor. -/
def array (item : ReadM Value) (turns : Nat) : ReadM Value := do
  advance 1
  skipBlanks
  if (← peek) = some bracketClose then
    advance 1
    return .array []
  else items item turns #[]

/-- Reads a key and the colon behind it. -/
def key : ReadM String := do
  skipBlanks
  if (← peek) = some quote then
    let name ← StringLiteral.read
    skipBlanks
    if (← peek) = some colon then
      advance 1
      return name
    else unexpected .expectedColon
  else unexpected .expectedKey

/-- Reads members up to the closing brace, in at most `turns` turns. -/
def members (item : ReadM Value) : (turns : Nat) → Collector → ReadM Value
  | 0, _ => unexpected .expectedKey
  | turns + 1, done => do
    let name ← key
    let v ← item
    skipBlanks
    let next ← peek
    if next = some comma then
      advance 1
      members item turns (done.insert name v)
    else if next = some braceClose then
      advance 1
      return .object (done.insert name v).toMembers
    else unexpected .expectedMemberEnd

/-- Reads the object whose brace is at the cursor. -/
def object (item : ReadM Value) (turns : Nat) : ReadM Value := do
  advance 1
  skipBlanks
  if (← peek) = some braceClose then
    advance 1
    return .object []
  else members item turns {}

/-- Reads a value that nests at most `levels` deep. -/
def value (turns : Nat) : (levels : Nat) → ReadM Value
  | 0 => fun c => valueWith (failHere .recursionLimit) (failHere .recursionLimit) c
  | levels + 1 => fun c =>
    valueWith (array (value turns levels) turns) (object (value turns levels) turns) c

/-- Reads a value, and blanks up to the end. -/
def whole (turns levels : Nat) : ReadM Value := do
  let v ← value turns levels
  skipBlanks
  if (← get).atEnd then return v else failHere .trailingCharacters

/-- The value of a document within bounds, or what is wrong with it. -/
def read (bounds : Bounds) (input : Bytes) : Except Fault Value :=
  let size := input.length
  if size = 0 then .error ⟨.emptyDocument, 0⟩
  else if bounds.maxInputSize < size then .error ⟨.inputTooLarge, 0⟩
  else
    match (whole size bounds.maxDepth).run (Cursor.ofBytes input) with
    | .ok v _ => .ok v
    | .error fault _ => .error fault

/-- Decodes a document within bounds. -/
def decodeWithin (bounds : Bounds) (input : Bytes) : Except Diagnostic Value :=
  match read bounds input with
  | .ok v => .ok v
  | .error fault => .error (fault.inDocument input)

/-- Decodes a document within the fixed limits. -/
def decode (input : Bytes) : Except Diagnostic Value := decodeWithin {} input

end JsonCodec.Document
