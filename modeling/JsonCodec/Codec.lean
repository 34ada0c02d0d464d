/-
The two directions of the codec as callers use them: a mask of options and a value in, a document
out; and a document in, a value out.
-/
import JsonCodec.Document
import JsonCodec.Encoder

namespace JsonCodec

/-- What either direction may answer in place of a result. -/
inductive CodecError where
  | options (e : UnknownBits)
  | encode (e : EncodeError)
  | decode (d : Diagnostic)

namespace CodecError

def message : CodecError → String
  | options e => e.message
  | encode e => e.message
  | decode d => d.display

def isOptions : CodecError → Bool
  | options _ => true
  | _ => false

def encode? : CodecError → Option EncodeError
  | encode e => some e
  | _ => none

def decode? : CodecError → Option Diagnostic
  | decode d => some d
  | _ => none

end CodecError

namespace Codec

/-- Encodes a value of a graph, with a hook and its state. A mask with an unknown bit is refused
before anything is looked at. -/
def encodeWith {σ : Type} (mask : UInt32) (graph : Graph) (hook : Option (Hook σ))
    (hookState : σ) (v : Value) : Except CodecError Bytes × σ :=
  match Options.ofMask? mask with
  | .error e => (.error (.options e), hookState)
  | .ok options =>
    let encoder : Encoder σ := { options := options, graph := graph, hook := hook }
    let outcome := encoder.encodeInto v #[] hookState
    match outcome.error with
    | none => (.ok outcome.out.toList, outcome.hookState)
    | some e => (.error (.encode e), outcome.hookState)

/-- Encodes a value without handles. -/
def encode (mask : UInt32) (v : Value) : Except CodecError Bytes :=
  (encodeWith mask .empty none () v).1

/-- Decodes a document. -/
def decode (input : Bytes) : Except CodecError Value :=
  match Document.decode input with
  | .ok v => .ok v
  | .error d => .error (.decode d)

end Codec

end JsonCodec
