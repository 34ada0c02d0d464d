/-
Writing a value graph as a document.

A value without a text of its own is looked up: a node has its content, an application value the
value it stands for or its fields, and any other is offered to the hook, whose answer is written
in its place. Three guards keep this finite: the depth counts containers, nodes and values stood
for; the hook depth counts answers of the hook inside one another; and no handle may be open twice
on one path. So at most `Encoder.budget` values are being written at any time, each inside the one
before, and the recursion is on that number.
-/
import JsonCodec.Encoder.Key
import JsonCodec.Encoder.Session

namespace JsonCodec

/-- Options, the meaning of handles, and the hook if there is one. -/
structure Encoder (σ : Type) where
  options : Options := {}
  graph : Graph := .empty
  hook : Option (Hook σ) := none

namespace Encoder

open Ascii WriteM

variable {σ : Type}

/-- A new line where items and members have lines of their own. -/
def lineBreak (e : Encoder σ) : WriteM σ Unit :=
  if e.options.indent2 then newline else pure ()

/-- The comma between two items or members. -/
def separator (first : Bool) : WriteM σ Unit :=
  if first then pure () else push comma

/-- What stands before an item or member. -/
def beginElement (e : Encoder σ) (first : Bool) : WriteM σ Unit := do
  separator first
  e.lineBreak

/-- Closes the level of a container, and the container. -/
def close (e : Encoder σ) (bracket : UInt8) : WriteM σ Unit := do
  exitLevel
  e.lineBreak
  push bracket

/-- Items in order. -/
def items (e : Encoder σ) (recur : Value → WriteM σ Unit) : (first : Bool) → List Value →
    WriteM σ Unit
  | _, [] => pure ()
  | first, item :: rest => do
    e.beginElement first
    recur item
    e.items recur false rest

def array (e : Encoder σ) (recur : Value → WriteM σ Unit) (values : List Value) :
    WriteM σ Unit := do
  enterLevel
  if values.isEmpty then
    append [bracketOpen, bracketClose]
    exitLevel
  else
    push bracketOpen
    e.items recur true values
    e.close bracketClose

/-- A key, the colon and the value. -/
def member (e : Encoder σ) (recur : Value → WriteM σ Unit) (first : Bool) (key : KeyText)
    (value : Value) : WriteM σ Unit := do
  e.beginElement first
  modify fun s => { s with out := key.append s.out e.options }
  append (if e.options.indent2 then [colon, space] else [colon])
  recur value

/-- Members in order; the text of a key is made when its turn comes. -/
def members (e : Encoder σ) (recur : Value → WriteM σ Unit) : (first : Bool) → Members →
    WriteM σ Unit
  | _, [] => pure ()
  | first, (key, value) :: rest => do
    let key ← lift (KeyText.ofValue e.graph e.options key)
    e.member recur first key value
    e.members recur false rest

/-- Members whose keys are text already. -/
def renderedMembers (e : Encoder σ) (recur : Value → WriteM σ Unit) : (first : Bool) →
    List (KeyText × Value) → WriteM σ Unit
  | _, [] => pure ()
  | first, (key, value) :: rest => do
    e.member recur first key value
    e.renderedMembers recur false rest

/-- The members of an object, in the order of their keys where that is asked for. -/
def contents (e : Encoder σ) (recur : Value → WriteM σ Unit) (ms : Members) : WriteM σ Unit :=
  if e.options.sortKeys then do
    let sorted ← lift (KeyText.sorted e.graph e.options ms)
    e.renderedMembers recur true sorted
  else e.members recur true ms

def object (e : Encoder σ) (recur : Value → WriteM σ Unit) (ms : Members) : WriteM σ Unit := do
  enterLevel
  if ms.isEmpty then
    append [braceOpen, braceClose]
    exitLevel
  else
    push braceOpen
    e.contents recur ms
    e.close braceClose

/-- The content of a node, one level deeper. -/
def shared (e : Encoder σ) (recur : Value → WriteM σ Unit) (node : NodeId) : WriteM σ Unit := do
  openHandle (.node node)
  enterLevel
  recur (e.graph.content node)
  exitLevel
  closeHandle (.node node)

/-- What the hook offers for a value, one level of the hook deeper. -/
def replaced (e : Encoder σ) (recur : Value → WriteM σ Unit) (v : Value) : WriteM σ Unit := do
  match e.hook with
  | none => refuse (.unsupported v.typeName)
  | some hook =>
    if Limits.maxHookDepth ≤ (← get).hookDepth then refuse .hookRecursionLimit
    else
      match ← ask hook v with
      | none => refuse (.unsupported v.typeName)
      | some replacement =>
        enterHook
        recur replacement
        exitHook

/-- What an application value comes to: the value it stands for, one level deeper, or else its
fields, or else what the hook offers. -/
def expanded (e : Encoder σ) (recur : Value → WriteM σ Unit) (id : ForeignId) (name : String) :
    WriteM σ Unit :=
  match e.graph.enumValue id with
  | some value => do
    enterLevel
    recur value
    exitLevel
  | none =>
    match if e.options.passthroughDataclass then none else e.graph.fields id with
    | some fields => e.object recur fields
    | none => e.replaced recur (.foreign id name)

def foreign (e : Encoder σ) (recur : Value → WriteM σ Unit) (id : ForeignId) (name : String) :
    WriteM σ Unit := do
  openHandle (.foreign id)
  e.expanded recur id name
  closeHandle (.foreign id)

/-- Writes a value, given how to write the values inside it. -/
def dispatch (e : Encoder σ) (recur : Value → WriteM σ Unit) (v : Value) : WriteM σ Unit :=
  match v with
  | .null => append (Utf8.encode "null")
  | .bool true => append (Utf8.encode "true")
  | .bool false => append (Utf8.encode "false")
  | .int n => do append (← lift (Scalar.int e.options n))
  | .bigInt n => do append (← lift (Scalar.bigInt e.options n))
  | .float x => do append (← lift (Scalar.float e.options x))
  | .str text => modify fun s => { s with out := Quoted.append s.out text e.options.asciiOnly }
  | .array values => e.array recur values
  | .object ms => e.object recur ms
  | .dateTime t =>
    if e.options.passthroughDatetime then e.replaced recur v
    else do appendQuoted (← lift (t.text e.options))
  | .date d =>
    if e.options.passthroughDatetime then e.replaced recur v else appendQuoted d.text
  | .time t =>
    if e.options.passthroughDatetime then e.replaced recur v else appendQuoted (t.text e.options)
  | .uuid id => appendQuoted id.text
  | .fragment raw => append raw
  | .shared node => e.shared recur node
  | .foreign id name => e.foreign recur id name

/-- Writes a value, with at most `budget` values being written inside one another. -/
def value (e : Encoder σ) : (budget : Nat) → Value → WriteM σ Unit
  | 0, _ => throw .outOfBudget
  | budget + 1, v => e.dispatch (e.value budget) v

/-- A value at the top, one for each level and one for each answer of the hook. -/
def budget : Nat := 1 + Limits.maxDepth + Limits.maxHookDepth

/-- How an encoding ended: the buffer, the state of the hook, and the error if there was one. -/
structure Outcome (σ : Type) where
  error : Option EncodeError
  out : Array UInt8
  hookState : σ

/-- Appends the encoding of `v` to `out`. After an error `out` is as it was. -/
def encodeInto (e : Encoder σ) (v : Value) (out : Array UInt8) (hookState : σ) : Outcome σ :=
  let start := out.size
  match (e.value budget v).run { out := out, hookState := hookState } with
  | .ok _ s => ⟨none, if e.options.appendNewline then s.out.push lineFeed else s.out, s.hookState⟩
  | .error stop s => ⟨some stop.error, s.out.take start, s.hookState⟩

/-- The encoding of `v`, by an encoder whose hook keeps no state. -/
def encode (e : Encoder Unit) (v : Value) : Except EncodeError Bytes :=
  let outcome := e.encodeInto v #[] ()
  match outcome.error with
  | none => .ok outcome.out.toList
  | some error => .error error

/-- The options by name, and whether there is a hook. -/
def describe (e : Encoder σ) : String :=
  "Encoder \x7b opts: " ++ e.options.describe ++ ", default: " ++
    (if e.hook.isSome then "true" else "false") ++ " \x7d"

end Encoder

end JsonCodec
