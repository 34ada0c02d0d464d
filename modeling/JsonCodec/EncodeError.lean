/-
Why a value could not be written.
-/
namespace JsonCodec

/-- The floats that no number of a document stands for. -/
inductive NonFinite where
  | nan
  | infinity
  | negInfinity
deriving DecidableEq

namespace NonFinite

/-- The name that stands for it where names are allowed. -/
def name : NonFinite → String
  | nan => "NaN"
  | infinity => "Infinity"
  | negInfinity => "-Infinity"

end NonFinite

inductive EncodeError where
  /-- No text of its own, and no replacement by a hook. -/
  | unsupported (typeName : String)
  /-- A node or application value contains itself. -/
  | circularReference
  /-- Nested deeper than `Limits.maxDepth`. -/
  | recursionLimit
  /-- More replacements inside one another than `Limits.maxHookDepth`. -/
  | hookRecursionLimit
  | nonFiniteFloat (x : NonFinite)
  /-- A datetime that is on no time scale. -/
  | naiveDateTime
  /-- A key that is not text, where only text may be. -/
  | nonStringKey
  /-- A key of a kind that is never written as one. -/
  | invalidKey (typeName : String)
  /-- An integer beyond `Limits.maxSafeInteger`. -/
  | integerOutOfRange
deriving DecidableEq

namespace EncodeError

def message : EncodeError → String
  | unsupported typeName => "Type is not JSON serializable: " ++ typeName
  | circularReference => "Circular reference detected"
  | recursionLimit => "Recursion limit reached"
  | hookRecursionLimit => "default serializer exceeds recursion limit"
  | nonFiniteFloat x => "Cannot serialize non-finite float " ++ x.name
  | naiveDateTime =>
    "datetime does not have a timezone offset; use OPT_NAIVE_UTC to treat it as UTC"
  | nonStringKey => "Dict key must be str"
  | invalidKey typeName =>
    "Dict key must be a type serializable with OPT_NON_STR_KEYS: " ++ typeName
  | integerOutOfRange => "Integer exceeds 53-bit range"

end EncodeError

end JsonCodec
