/-
Collecting the members of an object while they are read.

A repeated key keeps its first place and takes the last value. Few members are searched one by
one; from the sixteenth on an index tells the place of each key.

The index stands for any finite map: for a key it tells the place that was last stored under it, and
nothing is asked of the order in which it keeps the keys.
-/
import Std.Data.HashMap
import JsonCodec.Value

namespace JsonCodec

structure Collector where
  entries : Array (String × Value) := #[]
  index : Std.HashMap String Nat := ∅

namespace Collector

/-- How many members are searched one by one. -/
def searchLimit : Nat := 16

/-- The places of keys that differ from one another. -/
def indexOf (entries : Array (String × Value)) : Std.HashMap String Nat :=
  entries.zipIdx.foldl (fun index ((key, _), place) => index.insert key place) ∅

/-- The entries with another value at a place. -/
def setAt (entries : Array (String × Value)) (place : Nat) (value : Value) :
    Array (String × Value) :=
  entries.modify place fun (key, _) => (key, value)

/-- Stores a member by searching one by one. -/
def insertBySearch (c : Collector) (key : String) (value : Value) : Collector :=
  match c.entries.findIdx? (·.1 == key) with
  | some place => { c with entries := setAt c.entries place value }
  | none => { c with entries := c.entries.push (key, value) }

/-- Stores a member by the index, which is made when it is first needed. -/
def insertByIndex (c : Collector) (key : String) (value : Value) : Collector :=
  let index := if c.index.isEmpty then indexOf c.entries else c.index
  match index[key]? with
  | some place => ⟨setAt c.entries place value, index⟩
  | none => ⟨c.entries.push (key, value), index.insert key c.entries.size⟩

/-- Stores a member. -/
def insert (c : Collector) (key : String) (value : Value) : Collector :=
  if c.index.isEmpty && c.entries.size < searchLimit then c.insertBySearch key value
  else c.insertByIndex key value

/-- The members in order. -/
def toMembers (c : Collector) : Members :=
  c.entries.toList.map fun (key, value) => (.str key, value)

end Collector

end JsonCodec
