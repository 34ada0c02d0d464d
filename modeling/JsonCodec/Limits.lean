/-
The fixed bounds on size, nesting and integers.
-/
namespace JsonCodec.Limits

/-- How deep a document nests at most. -/
def maxDepth : Nat := 1024

/-- How many replacements by a hook stand one inside another at most. -/
def maxHookDepth : Nat := 254

/-- The largest integer that every binary64 reader keeps, `2 ^ 53 - 1`. -/
def maxSafeInteger : Int := 9007199254740991

/-- How many bytes a document has at most: 2 GiB. -/
def maxInputSize : Nat := 2 * 1024 * 1024 * 1024

end JsonCodec.Limits
