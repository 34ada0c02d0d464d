/-
A place in a document: the offset, and the bytes from there on. It moves forward only.
-/
import JsonCodec.Document.Fault

namespace JsonCodec

structure Cursor where
  pos : Nat
  rest : Bytes
deriving DecidableEq, Inhabited

namespace Cursor

/-- The front of a document. -/
def ofBytes (document : Bytes) : Cursor := ⟨0, document⟩

def peek (c : Cursor) : Option UInt8 := c.rest.head?

/-- The byte `n` places on. -/
def peekAt (c : Cursor) (n : Nat) : Option UInt8 := c.rest[n]?

def atEnd (c : Cursor) : Bool := c.rest.isEmpty

/-- Moves on by `n` bytes, or to the end if there are fewer. -/
def advance (c : Cursor) (n : Nat) : Cursor :=
  ⟨c.pos + (c.rest.take n).length, c.rest.drop n⟩

/-- Moves over the bytes of a class, which are answered too. -/
def span (c : Cursor) (p : UInt8 → Bool) : Bytes × Cursor :=
  let taken := c.rest.takeWhile p
  (taken, ⟨c.pos + taken.length, c.rest.dropWhile p⟩)

/-- Moves over blanks. -/
def skipBlanks (c : Cursor) : Cursor := (c.span Ascii.isBlank).2

/-- Moves over `word`, if it comes next. -/
def eat? (c : Cursor) (word : Bytes) : Option Cursor :=
  if word.isPrefixOf c.rest then some ⟨c.pos + word.length, c.rest.drop word.length⟩ else none

/-- Moving on takes from the rest what it adds to the offset. -/
theorem pos_add_length_advance (c : Cursor) (n : Nat) :
    (c.advance n).pos + (c.advance n).rest.length = c.pos + c.rest.length := by
  simp only [advance, List.length_take, List.length_drop]
  omega

theorem pos_add_length_span (c : Cursor) (p : UInt8 → Bool) :
    (c.span p).2.pos + (c.span p).2.rest.length = c.pos + c.rest.length := by
  have h := congrArg List.length (List.takeWhile_append_dropWhile (p := p) (l := c.rest))
  rw [List.length_append] at h
  simp only [span]
  omega

/-- What is wrong here, where something else was expected: the input ends, or is not UTF-8, or is
not that. -/
def unexpected (c : Cursor) (expecting : Reason) : Fault :=
  match c.rest with
  | [] => ⟨.unexpectedEnd, c.pos⟩
  | b :: _ =>
    if 0x80 ≤ b && !Utf8.startsWithChar c.rest then ⟨.invalidUtf8, c.pos⟩ else ⟨expecting, c.pos⟩

end Cursor

/-- Reads from a cursor. A failure too leaves the cursor somewhere. -/
abbrev ReadM := EStateM Fault Cursor

namespace ReadM

variable {α : Type}

def fail (reason : Reason) (position : Nat) : ReadM α := throw ⟨reason, position⟩

/-- Fails at the cursor. -/
def failHere (reason : Reason) : ReadM α := do fail reason (← get).pos

/-- Fails at the cursor, where `expecting` was to come. -/
def unexpected (expecting : Reason) : ReadM α := do throw ((← get).unexpected expecting)

def peek : ReadM (Option UInt8) := do return (← get).peek

def advance (n : Nat) : ReadM Unit := modify (·.advance n)

def skipBlanks : ReadM Unit := modify Cursor.skipBlanks

end ReadM

end JsonCodec
