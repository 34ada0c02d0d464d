/-
The state of one encoding, and the steps that change it.

A session holds what has been written, how many levels are open, which handles are open on the
current path, how many answers of the hook stand inside one another, and the state of the hook. A
step that fails leaves the session where it was when it failed.
-/
import JsonCodec.EncodeError
import JsonCodec.Guard
import JsonCodec.Value

namespace JsonCodec

/-- Offers a value in place of one without a text; it may keep a state. -/
abbrev Hook (σ : Type) := Value → StateM σ (Option Value)

namespace Hook

/-- The hook that keeps no state. -/
def ofFunction {σ : Type} (f : Value → Option Value) : Hook σ := fun v => pure (f v)

end Hook

/-- The identity of a handle. -/
inductive Identity where
  | node (id : NodeId)
  | foreign (id : ForeignId)
deriving DecidableEq

/-- The state of one encoding. -/
structure Session (σ : Type) where
  out : Array UInt8
  depth : DepthTracker := {}
  opened : CycleGuard Identity := {}
  hookDepth : Nat := 0
  hookState : σ

/-- Why an encoding stops early. -/
inductive Stop where
  | refused (e : EncodeError)
  /-- More values inside one another than the budget allows. -/
  | outOfBudget

/-- The error that a caller is told of. -/
def Stop.error : Stop → EncodeError
  | .refused e => e
  | .outOfBudget => .recursionLimit

/-- Writes within a session. -/
abbrev WriteM (σ : Type) := EStateM Stop (Session σ)

namespace WriteM

variable {σ : Type}

def refuse {α : Type} (e : EncodeError) : WriteM σ α := throw (.refused e)

def lift {α : Type} : Except EncodeError α → WriteM σ α
  | .ok a => pure a
  | .error e => refuse e

def append (bytes : Bytes) : WriteM σ Unit := modify fun s => { s with out := s.out ++ bytes }

def push (b : UInt8) : WriteM σ Unit := modify fun s => { s with out := s.out.push b }

/-- A new line, and two spaces for every open level. -/
def newline : WriteM σ Unit :=
  modify fun s =>
    { s with out := s.out.push Ascii.lineFeed ++ List.replicate (2 * s.depth.current) Ascii.space }

/-- Appends bytes that need no escape between quotes. -/
def appendQuoted (bytes : Bytes) : WriteM σ Unit := do
  push Ascii.quote
  append bytes
  push Ascii.quote

/-- Opens a level. -/
def enterLevel : WriteM σ Unit := do
  match (← get).depth.enter? with
  | some depth => modify fun s => { s with depth := depth }
  | none => refuse .recursionLimit

/-- Closes a level. -/
def exitLevel : WriteM σ Unit := modify fun s => { s with depth := s.depth.exit }

/-- Opens a handle. -/
def openHandle (i : Identity) : WriteM σ Unit := do
  match (← get).opened.enter? i with
  | some opened => modify fun s => { s with opened := opened }
  | none => refuse .circularReference

/-- Closes a handle. -/
def closeHandle (i : Identity) : WriteM σ Unit :=
  modify fun s => { s with opened := s.opened.exit i }

/-- Asks the hook. -/
def ask (hook : Hook σ) (v : Value) : WriteM σ (Option Value) :=
  modifyGet fun s =>
    let (answer, hookState) := (hook v).run s.hookState
    (answer, { s with hookState := hookState })

/-- Goes into an answer of the hook. -/
def enterHook : WriteM σ Unit := modify fun s => { s with hookDepth := s.hookDepth + 1 }

/-- Leaves an answer of the hook. -/
def exitHook : WriteM σ Unit := modify fun s => { s with hookDepth := s.hookDepth - 1 }

end WriteM

end JsonCodec
