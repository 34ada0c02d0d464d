/-
The text of a value, given without a buffer.

The encoder writes into a session. What it appends there depends on nothing in the buffer, only on
the path that leads to the value: how many levels are open, which handles are, and how many
answers of the hook stand around it. `Encoder.text` gives the bytes for a path, as the encoder
would append them; that it does is shown where sessions are looked at.
-/
import JsonCodec.Encoder
import JsonCodec.Proofs.Quoted

namespace JsonCodec

/-- The path from the top to a value. -/
structure Path where
  /-- How many levels are open. -/
  depth : Nat := 0
  /-- The handles that are open. -/
  opened : List Identity := []
  /-- How many answers of the hook stand around the value. -/
  hookDepth : Nat := 0

namespace Path

def deeper (p : Path) : Path := { p with depth := p.depth + 1 }

def opening (p : Path) (i : Identity) : Path := { p with opened := i :: p.opened }

def hooked (p : Path) : Path := { p with hookDepth := p.hookDepth + 1 }

end Path

/-- Gives a part of a document. The hook may change its state. -/
abbrev TextM (σ : Type) := EStateM Stop σ

namespace TextM

variable {σ α : Type}

def refuse (e : EncodeError) : TextM σ α := throw (.refused e)

def lift : Except EncodeError α → TextM σ α
  | .ok a => pure a
  | .error e => refuse e

/-- Asks the hook. -/
def ask (hook : Hook σ) (v : Value) : TextM σ (Option Value) := modifyGet (hook v).run

end TextM

/-- The key between quotes. -/
def KeyText.quoted (o : Options) : KeyText → Bytes
  | own text => Quoted.literal o.asciiOnly text
  | derived text => Quoted.literal o.asciiOnly text
  | plain bytes => Ascii.quote :: (bytes ++ [Ascii.quote])

namespace Options

open Ascii

/-- A new line with the indentation of a level, where there are such. -/
def breakAt (o : Options) (depth : Nat) : Bytes :=
  if o.indent2 then lineFeed :: List.replicate (2 * depth) space else []

/-- What stands in front of an item or member of a level. -/
def leadAt (o : Options) (depth : Nat) (first : Bool) : Bytes :=
  (if first then [] else [comma]) ++ o.breakAt depth

/-- What stands between a key and its value. -/
def afterKey (o : Options) : Bytes := if o.indent2 then [colon, space] else [colon]

end Options

namespace Encoder

open Ascii TextM

variable {σ : Type}

/-- Parts in order, each behind its lead. -/
def partsText (lead : Bool → Bytes) : (first : Bool) → List (TextM σ Bytes) → TextM σ Bytes
  | _, [] => pure []
  | first, part :: parts => do
    let b ← part
    let bs ← partsText lead false parts
    return lead first ++ b ++ bs

/-- A container: the parts, each on a line of its own where there are lines. -/
def containerText (e : Encoder σ) (p : Path) (left right : UInt8) (isEmpty : Bool)
    (parts : TextM σ (List (TextM σ Bytes))) : TextM σ Bytes :=
  if p.depth < Limits.maxDepth then
    if isEmpty then pure [left, right]
    else do
      let inside ← partsText (e.options.leadAt (p.depth + 1)) true (← parts)
      return left :: (inside ++ e.options.breakAt p.depth ++ [right])
  else refuse .recursionLimit

def arrayText (e : Encoder σ) (recur : Path → Value → TextM σ Bytes) (p : Path)
    (vs : List Value) : TextM σ Bytes :=
  e.containerText p bracketOpen bracketClose vs.isEmpty (pure (vs.map (recur p.deeper)))

/-- A member whose key is text already. -/
def memberText (e : Encoder σ) (key : KeyText) (value : TextM σ Bytes) : TextM σ Bytes := do
  return key.quoted e.options ++ e.options.afterKey ++ (← value)

/-- The members, in the order of their keys where that is asked for. -/
def memberTexts (e : Encoder σ) (recur : Value → TextM σ Bytes) (ms : Members) :
    TextM σ (List (TextM σ Bytes)) :=
  if e.options.sortKeys then do
    let sorted ← lift (KeyText.sorted e.graph e.options ms)
    return sorted.map fun (key, v) => e.memberText key (recur v)
  else
    return ms.map fun (key, v) => do
      e.memberText (← lift (KeyText.ofValue e.graph e.options key)) (recur v)

def objectText (e : Encoder σ) (recur : Path → Value → TextM σ Bytes) (p : Path) (ms : Members) :
    TextM σ Bytes :=
  e.containerText p braceOpen braceClose ms.isEmpty (e.memberTexts (recur p.deeper) ms)

/-- What lies one level deeper. -/
def deeperText (recur : Path → Value → TextM σ Bytes) (p : Path) (v : Value) : TextM σ Bytes :=
  if p.depth < Limits.maxDepth then recur p.deeper v else refuse .recursionLimit

/-- What an open handle stands for. -/
def openingText (p : Path) (i : Identity) (inside : Path → TextM σ Bytes) : TextM σ Bytes :=
  if i ∈ p.opened then refuse .circularReference else inside (p.opening i)

/-- What the hook offers for a value. -/
def replacedText (e : Encoder σ) (recur : Path → Value → TextM σ Bytes) (p : Path) (v : Value) :
    TextM σ Bytes :=
  match e.hook with
  | none => refuse (.unsupported v.typeName)
  | some hook =>
    if Limits.maxHookDepth ≤ p.hookDepth then refuse .hookRecursionLimit
    else do
      match ← ask hook v with
      | none => refuse (.unsupported v.typeName)
      | some replacement => recur p.hooked replacement

/-- What an application value comes to. -/
def expandedText (e : Encoder σ) (recur : Path → Value → TextM σ Bytes) (p : Path)
    (id : ForeignId) (name : String) : TextM σ Bytes :=
  match e.graph.enumValue id with
  | some value => deeperText recur p value
  | none =>
    match if e.options.passthroughDataclass then none else e.graph.fields id with
    | some fields => e.objectText recur p fields
    | none => e.replacedText recur p (.foreign id name)

/-- A temporal value between quotes, or what the hook offers for it. -/
def temporalText (e : Encoder σ) (recur : Path → Value → TextM σ Bytes) (p : Path) (v : Value)
    (text : Except EncodeError Bytes) : TextM σ Bytes :=
  if e.options.passthroughDatetime then e.replacedText recur p v
  else do return quote :: ((← lift text) ++ [quote])

/-- The text of a value, given that of the values inside it. -/
def textWith (e : Encoder σ) (recur : Path → Value → TextM σ Bytes) (p : Path) (v : Value) :
    TextM σ Bytes :=
  match v with
  | .null => pure (Utf8.encode "null")
  | .bool true => pure (Utf8.encode "true")
  | .bool false => pure (Utf8.encode "false")
  | .int n => lift (Scalar.int e.options n)
  | .bigInt n => lift (Scalar.bigInt e.options n)
  | .float x => lift (Scalar.float e.options x)
  | .str text => pure (Quoted.literal e.options.asciiOnly text)
  | .array vs => e.arrayText recur p vs
  | .object ms => e.objectText recur p ms
  | .dateTime t => e.temporalText recur p v (t.text e.options)
  | .date d => e.temporalText recur p v (.ok d.text)
  | .time t => e.temporalText recur p v (.ok (t.text e.options))
  | .uuid id => pure (quote :: (id.text ++ [quote]))
  | .fragment raw => pure raw
  | .shared node =>
    openingText p (.node node) fun p => deeperText recur p (e.graph.content node)
  | .foreign id name => openingText p (.foreign id) fun p => e.expandedText recur p id name

/-- The text of a value, with at most `budget` values inside one another. -/
def text (e : Encoder σ) : (budget : Nat) → Path → Value → TextM σ Bytes
  | 0, _, _ => throw .outOfBudget
  | budget + 1, p, v => e.textWith (e.text budget) p v

end Encoder

end JsonCodec
