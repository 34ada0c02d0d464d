/-
Keys of objects as text.

All keys of an object are put into text before they are ordered, so the order is that of the
bytes that a reader gets back.
-/
import JsonCodec.Encoder.Scalar
import JsonCodec.Graph
import JsonCodec.Quoted
import JsonCodec.Temporal.Text

namespace JsonCodec

/-- The text of a key, before it is quoted. -/
inductive KeyText where
  /-- A key that is text itself. -/
  | own (text : String)
  /-- The text that an application value stands for. -/
  | derived (text : String)
  /-- A literal, number, date, time or UUID, which needs no escape. -/
  | plain (bytes : Bytes)

namespace KeyText

/-- The bytes that order keys. -/
def bytes : KeyText → Bytes
  | own text => Utf8.encode text
  | derived text => Utf8.encode text
  | plain bytes => bytes

/-- Appends the quoted key to `out`. -/
def append (out : Array UInt8) (o : Options) : KeyText → Array UInt8
  | own text => Quoted.append out text o.asciiOnly
  | derived text => Quoted.append out text o.asciiOnly
  | plain bytes => (out.push Ascii.quote ++ bytes).push Ascii.quote

/-- The same text, as that of a value that is no key itself. -/
def derive : KeyText → KeyText
  | own text => derived text
  | text => text

/-- The text of a key that is no text and no application value. Any integer may be a key. -/
def ofLeaf (o : Options) : Value → Except EncodeError KeyText
  | .null => .ok (plain (Utf8.encode "null"))
  | .bool true => .ok (plain (Utf8.encode "true"))
  | .bool false => .ok (plain (Utf8.encode "false"))
  | .int n => .ok (plain (Scalar.int64 n))
  | .bigInt n => .ok (plain n.text)
  | .float x => (Scalar.float o x).map plain
  | .dateTime t => (t.text o).map plain
  | .date d => .ok (plain d.text)
  | .time t => .ok (plain (t.text o))
  | .uuid id => .ok (plain id.text)
  | key => .error (.invalidKey key.typeName)

/-- The text of a key that is no application value. -/
def ofNative (o : Options) : Value → Except EncodeError KeyText
  | .str text => .ok (own text)
  | key => if o.nonStrKeys then ofLeaf o key else .error .nonStringKey

/-- The text of a key. An application value has the text of the value that it stands for. -/
def ofValue (g : Graph) (o : Options) : Value → Except EncodeError KeyText
  | .foreign id name =>
    if o.nonStrKeys then
      match g.enumValue id with
      | none | some (.foreign _ _) => .error (.invalidKey name)
      | some value => (ofNative o value).map derive
    else .error .nonStringKey
  | key => ofNative o key

/-- The members with the text of their keys. -/
def ofMembers (g : Graph) (o : Options) (members : Members) :
    Except EncodeError (List (KeyText × Value)) :=
  members.mapM fun (key, value) => do return (← ofValue g o key, value)

/-- The members in the order of the bytes of their keys; equal keys stay as they were. -/
def sorted (g : Graph) (o : Options) (members : Members) :
    Except EncodeError (List (KeyText × Value)) := do
  return (← ofMembers g o members).mergeSort fun a b => a.1.bytes ≤ b.1.bytes

end KeyText

end JsonCodec
