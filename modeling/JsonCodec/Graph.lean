/-
What the handles in a value stand for.

A node has a content. An application value may stand for another value, as the cases of an
enumeration do, or have named fields, as a record does, or neither. Nothing keeps a handle from
leading back to itself, nor an application value from standing for a new one for ever.
-/
import JsonCodec.Value

namespace JsonCodec

structure Graph where
  content : NodeId → Value
  /-- The value that an application value stands for. -/
  enumValue : ForeignId → Option Value
  /-- The fields of an application value. -/
  fields : ForeignId → Option Members

namespace Graph

/-- Nodes of null, and application values that are neither enumerations nor records. -/
def empty : Graph := ⟨fun _ => .null, fun _ => none, fun _ => none⟩

/-- The graph with another content of a node. -/
def setNode (g : Graph) (node : NodeId) (value : Value) : Graph :=
  { g with content := fun n => if n = node then value else g.content n }

end Graph

end JsonCodec
