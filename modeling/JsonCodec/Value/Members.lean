/-
Operations on the members of an object, in the order in which the keys came.

Storing under a key that is there keeps the key and its place and changes the value. Operations
that put one value in the place of another, or take one out, answer with the value that was there.
-/
import JsonCodec.Value

namespace JsonCodec.Members

/-- Stores under `key`: over the first member with an equal key, else at the end. -/
def insert (members : Members) (key value : Value) : Option Value × Members :=
  match members with
  | [] => (none, [(key, value)])
  | (k, v) :: rest =>
    if k == key then (some v, (k, value) :: rest)
    else
      let (old, rest) := Members.insert rest key value
      (old, (k, v) :: rest)

/-- Appends a member whose key the caller knows to be new. -/
def pushUnique (members : Members) (key value : Value) : Members := members ++ [(key, value)]

/-- Stores at a place, if there is one of that number. -/
def replaceAt (members : Members) (index : Nat) (value : Value) : Option Value × Members :=
  match members, index with
  | [], _ => (none, [])
  | (k, v) :: rest, 0 => (some v, (k, value) :: rest)
  | (k, v) :: rest, index + 1 =>
    let (old, rest) := replaceAt rest index value
    (old, (k, v) :: rest)

/-- The value under a text key. -/
def get? (members : Members) (name : String) : Option Value :=
  (members.find? fun (k, _) => k.str? == some name).map (·.2)

/-- The value under any key. -/
def getKey? (members : Members) (key : Value) : Option Value :=
  (members.find? fun (k, _) => k == key).map (·.2)

/-- Takes out the first member under a text key. -/
def remove (members : Members) (name : String) : Option Value × Members :=
  match members with
  | [] => (none, [])
  | (k, v) :: rest =>
    if k.str? == some name then (some v, rest)
    else
      let (old, rest) := remove rest name
      (old, (k, v) :: rest)

/-- The members that storing pairs one after the other leads to. -/
def ofList (pairs : List (Value × Value)) : Members :=
  pairs.foldl (fun members (k, v) => (Members.insert members k v).2) []

def keys (members : Members) : List Value := members.map (·.1)

def values (members : Members) : List Value := members.map (·.2)

end JsonCodec.Members
