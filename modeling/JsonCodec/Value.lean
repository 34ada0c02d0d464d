/-
The values that documents are made of and written from.

`null` to `object` are what a document can say. The others are values with a text of their own
(`dateTime` to `fragment`), and two kinds of handle: to a node of a graph, which many places may
share and which may lead back to itself, and to a value of the application. What a handle stands
for is told by a `Graph`; the value holds its identity alone.
-/
import JsonCodec.BigInt
import JsonCodec.Bytes
import JsonCodec.Temporal
import JsonCodec.Uuid

namespace JsonCodec

/-- The identity of a shared node. -/
structure NodeId where
  index : Nat
deriving DecidableEq

/-- The identity of an application value. -/
structure ForeignId where
  index : Nat
deriving DecidableEq

inductive Value where
  | null
  | bool (b : Bool)
  | int (n : Int64)
  | bigInt (n : BigInt)
  | float (x : Binary64)
  | str (text : String)
  | array (items : List Value)
  | object (members : List (Value × Value))
  | dateTime (t : DateTime)
  | date (d : Date)
  | time (t : Time)
  | uuid (id : Uuid)
  | fragment (raw : Bytes)
  | shared (node : NodeId)
  | foreign (id : ForeignId) (typeName : String)
deriving Inhabited

/-- The members of an object in order. Keys are values; a document has text keys only. -/
abbrev Members := List (Value × Value)

namespace Value

mutual

/-- Floats are equal as numbers, handles by identity, and all else by its parts. -/
def beq : Value → Value → Bool
  | .null, .null => true
  | .bool a, .bool b => a == b
  | .int a, .int b => a == b
  | .bigInt a, .bigInt b => a == b
  | .float a, .float b => a == b
  | .str a, .str b => a == b
  | .array a, .array b => beqItems a b
  | .object a, .object b => beqMembers a b
  | .dateTime a, .dateTime b => a == b
  | .date a, .date b => a == b
  | .time a, .time b => a == b
  | .uuid a, .uuid b => a == b
  | .fragment a, .fragment b => a == b
  | .shared a, .shared b => a == b
  | .foreign a _, .foreign b _ => a == b
  | _, _ => false

/-- Items in order. -/
def beqItems : List Value → List Value → Bool
  | [], [] => true
  | a :: as, b :: bs => beq a b && beqItems as bs
  | _, _ => false

/-- Members in order, the keys too. -/
def beqMembers : Members → Members → Bool
  | [], [] => true
  | (j, a) :: as, (k, b) :: bs => beq j k && beq a b && beqMembers as bs
  | _, _ => false

end

instance : BEq Value := ⟨beq⟩

/-- An integer, in 64 bits if they hold it. -/
def ofInt (z : Int) : Value :=
  if fitsInt64 z then .int (Int64.ofInt z) else .bigInt ⟨z⟩

/-- The name of the kind of a value, or of the type of an application value. -/
def typeName : Value → String
  | .null => "null"
  | .bool _ => "bool"
  | .int _ | .bigInt _ => "int"
  | .float _ => "float"
  | .str _ => "str"
  | .array _ => "array"
  | .object _ => "object"
  | .dateTime _ => "datetime"
  | .date _ => "date"
  | .time _ => "time"
  | .uuid _ => "uuid"
  | .fragment _ => "fragment"
  | .shared _ => "shared"
  | .foreign _ name => name

def isNull : Value → Bool
  | .null => true
  | _ => false

def bool? : Value → Option Bool
  | .bool b => some b
  | _ => none

def int64? : Value → Option Int64
  | .int n => some n
  | _ => none

/-- Any number, rounded to the nearest float. -/
def float? : Value → Option Binary64
  | .float x => some x
  | .int n => some (Binary64.ofInt n.toInt)
  | .bigInt n => some n.toBinary64
  | _ => none

def str? : Value → Option String
  | .str text => some text
  | _ => none

def array? : Value → Option (List Value)
  | .array items => some items
  | _ => none

def object? : Value → Option Members
  | .object members => some members
  | _ => none

/-- Whether the value is of a kind that a document can say. -/
def isNative : Value → Bool
  | .null | .bool _ | .int _ | .bigInt _ | .float _ | .str _ | .array _ | .object _ => true
  | _ => false

end Value

end JsonCodec
