/-
Values as plain trees: null, booleans, numbers, text, and arrays and objects of these.

A value that a plain tree has no kind for becomes the text that is written for it, without quotes
at its ends. Names in an object are text; another key has the empty name.

The trees stand for those of a common JSON library, as that describes them: an object keeps its
members in the order in which their names were first stored, and under a name that is stored again
the last value; a number keeps a 64-bit integer or a finite binary64 exactly, and a float that is not
finite becomes null.
-/
import JsonCodec.Encoder

namespace JsonCodec

inductive PlainTree where
  | null
  | bool (b : Bool)
  | int (n : Int64)
  | float (x : Binary64)
  | str (text : String)
  | array (items : List PlainTree)
  | object (members : List (String × PlainTree))

namespace PlainTree

/-- Stores under a name: over the member of that name, else at the end. -/
def put (members : List (String × PlainTree)) (name : String) (tree : PlainTree) :
    List (String × PlainTree) :=
  match members with
  | [] => [(name, tree)]
  | (n, t) :: rest => if n = name then (n, tree) :: rest else (n, t) :: put rest name tree

/-- A text without the quotes at its ends. -/
def trimQuotes (text : String) : String :=
  let chars := text.toList.dropWhile (· == '"')
  String.ofList (chars.reverse.dropWhile (· == '"')).reverse

/-- The text that is written for a value. -/
def written (g : Graph) (v : Value) : Except EncodeError PlainTree := do
  let bytes ← Encoder.encode { graph := g } v
  return .str (trimQuotes (Utf8.decodeLossy bytes))

mutual

/-- The tree of a value. -/
def ofValue (g : Graph) : Value → Except EncodeError PlainTree
  | .null => .ok .null
  | .bool b => .ok (.bool b)
  | .int n => .ok (.int n)
  | .float x => .ok (if x.isFinite then .float x else .null)
  | .str text => .ok (.str text)
  | .array items => (ofItems g items).map .array
  | .object members => (ofMembers g [] members).map .object
  | v => written g v

/-- The trees of values in order. -/
def ofItems (g : Graph) : List Value → Except EncodeError (List PlainTree)
  | [] => .ok []
  | v :: rest => do
    let tree ← ofValue g v
    return tree :: (← ofItems g rest)

/-- The trees of members, stored one after the other. -/
def ofMembers (g : Graph) (done : List (String × PlainTree)) : Members →
    Except EncodeError (List (String × PlainTree))
  | [] => .ok done
  | (key, v) :: rest => do
    let tree ← ofValue g v
    ofMembers g (put done (key.str?.getD "") tree) rest

end

end PlainTree

end JsonCodec
