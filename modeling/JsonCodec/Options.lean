/-
What a caller may ask of the encoder: twelve flags, each a fixed bit of a 32-bit mask.
-/
import JsonCodec.Bytes

namespace JsonCodec

inductive Flag where
  | indent2
  | naiveUtc
  | nonStrKeys
  | omitMicroseconds
  | sortKeys
  | strictInteger
  | utcZ
  | passthroughDatetime
  | appendNewline
  | passthroughDataclass
  | asciiOnly
  | allowNonFinite
deriving DecidableEq

namespace Flag

/-- Every flag, by ascending bit. -/
def all : List Flag :=
  [indent2, naiveUtc, nonStrKeys, omitMicroseconds, sortKeys, strictInteger, utcZ,
    passthroughDatetime, appendNewline, passthroughDataclass, asciiOnly, allowNonFinite]

/-- The place of the flag's bit. Callers store masks, so the gaps stay gaps. -/
def place : Flag → Nat
  | indent2 => 0
  | naiveUtc => 1
  | nonStrKeys => 2
  | omitMicroseconds => 3
  | sortKeys => 5
  | strictInteger => 6
  | utcZ => 7
  | passthroughDatetime => 9
  | appendNewline => 10
  | passthroughDataclass => 11
  | asciiOnly => 12
  | allowNonFinite => 13

/-- The mask with the flag alone. -/
def bit (flag : Flag) : UInt32 := 1 <<< UInt32.ofNat flag.place

def name : Flag → String
  | indent2 => "INDENT_2"
  | naiveUtc => "NAIVE_UTC"
  | nonStrKeys => "NON_STR_KEYS"
  | omitMicroseconds => "OMIT_MICROSECONDS"
  | sortKeys => "SORT_KEYS"
  | strictInteger => "STRICT_INTEGER"
  | utcZ => "UTC_Z"
  | passthroughDatetime => "PASSTHROUGH_DATETIME"
  | appendNewline => "APPEND_NEWLINE"
  | passthroughDataclass => "PASSTHROUGH_DATACLASS"
  | asciiOnly => "ASCII_ONLY"
  | allowNonFinite => "ALLOW_NON_FINITE"

/-- The mask of every flag. -/
def known : UInt32 := all.foldl (fun mask flag => mask ||| flag.bit) 0

end Flag

/-- The flags that are set. -/
structure Options where
  /-- A line for every item and member, two spaces deeper a level. -/
  indent2 : Bool := false
  /-- A naive datetime is read as UTC. -/
  naiveUtc : Bool := false
  /-- Keys may be other values than text. -/
  nonStrKeys : Bool := false
  /-- Clock readings stop at the second. -/
  omitMicroseconds : Bool := false
  /-- Members in the order of their keys' bytes. -/
  sortKeys : Bool := false
  /-- No integer beyond `Limits.maxSafeInteger`. -/
  strictInteger : Bool := false
  /-- The offset of UTC is written `Z`. -/
  utcZ : Bool := false
  /-- Datetimes, dates and times go to the hook. -/
  passthroughDatetime : Bool := false
  /-- A line feed after the document. -/
  appendNewline : Bool := false
  /-- Application values with fields go to the hook. -/
  passthroughDataclass : Bool := false
  /-- Text is escaped down to ASCII. -/
  asciiOnly : Bool := false
  /-- NaN and the infinities are written by name. -/
  allowNonFinite : Bool := false
deriving DecidableEq, Inhabited

/-- Bits of a mask that belong to no flag. -/
structure UnknownBits where
  bits : UInt32
deriving DecidableEq

namespace UnknownBits

def message (e : UnknownBits) : String :=
  "Invalid opts: unrecognized option bits 0x" ++ String.ofList (Nat.toDigits 16 e.bits.toNat)

end UnknownBits

namespace Options

def has (o : Options) : Flag → Bool
  | .indent2 => o.indent2
  | .naiveUtc => o.naiveUtc
  | .nonStrKeys => o.nonStrKeys
  | .omitMicroseconds => o.omitMicroseconds
  | .sortKeys => o.sortKeys
  | .strictInteger => o.strictInteger
  | .utcZ => o.utcZ
  | .passthroughDatetime => o.passthroughDatetime
  | .appendNewline => o.appendNewline
  | .passthroughDataclass => o.passthroughDataclass
  | .asciiOnly => o.asciiOnly
  | .allowNonFinite => o.allowNonFinite

/-- The options that hold the flags of a predicate. -/
def ofFlags (set : Flag → Bool) : Options where
  indent2 := set .indent2
  naiveUtc := set .naiveUtc
  nonStrKeys := set .nonStrKeys
  omitMicroseconds := set .omitMicroseconds
  sortKeys := set .sortKeys
  strictInteger := set .strictInteger
  utcZ := set .utcZ
  passthroughDatetime := set .passthroughDatetime
  appendNewline := set .appendNewline
  passthroughDataclass := set .passthroughDataclass
  asciiOnly := set .asciiOnly
  allowNonFinite := set .allowNonFinite

/-- The options of a mask that has bits of flags only. -/
def ofMask? (mask : UInt32) : Except UnknownBits Options :=
  let unknown := mask &&& ~~~Flag.known
  if unknown = 0 then .ok (ofFlags fun flag => mask &&& flag.bit != 0) else .error ⟨unknown⟩

/-- The flags that are set, by ascending bit. -/
def flags (o : Options) : List Flag := Flag.all.filter o.has

def mask (o : Options) : UInt32 := o.flags.foldl (fun mask flag => mask ||| flag.bit) 0

/-- The names of the flags that are set, between bars. -/
def describe (o : Options) : String :=
  if o.flags.isEmpty then "Opt(0x0)"
  else "Opt(" ++ " | ".intercalate (o.flags.map Flag.name) ++ ")"

end Options

end JsonCodec
