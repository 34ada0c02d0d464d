/-
A document of made-up person records, of any size, to try the codec on.
-/
import JsonCodec.Encoder
import JsonCodec.Value.Members

namespace JsonCodec.People

/-- A day of a month for each index; the first 28 come in turn, and every month has them. -/
theorem day_mem {year : Int} {month : Nat} (h : 1 ≤ month ∧ month ≤ 12) (index : Nat) :
    1 ≤ index % 28 + 1 ∧ index % 28 + 1 ≤ daysInMonth year month := by
  have := @le_daysInMonth year month h
  omega

/-- Half past ten in UTC on a day of January 2024. -/
def createdAt (index : Nat) : DateTime where
  date := ⟨2024, 1, index % 28 + 1, by decide, day_mem (by decide) index⟩
  time := ⟨10, 30, 0, 0, by decide, by decide, by decide, by decide⟩
  offset := some Offset.utc

/-- A day of 1990; month and day go round on their own. -/
def birthday (index : Nat) : Date :=
  ⟨1990, index % 12 + 1, index % 28 + 1, by decide, day_mem (by omega) index⟩

/-- One and a half for each index, above ten. -/
def score (index : Nat) : Binary64 :=
  Binary64.ofMagnitude false (Binary64.roundRatio (3 * index + 20) 2)

/-- An object with text keys. -/
def named (members : List (String × Value)) : Value :=
  .object (members.map fun (name, value) => (.str name, value))

def metadata (index : Nat) : Value :=
  named [
    ("login_count", .ofInt (index * 3)),
    ("tags", .array [.str "alpha", .str "beta", .str "gamma"]),
    ("score", .float (score index))]

/-- One record. -/
def person (index : Nat) : Value :=
  named [
    ("id", .uuid ⟨BitVec.ofNat 128 (0x5EED0000 + index)⟩),
    ("name", .str ("Person " ++ toString index)),
    ("age", .ofInt (20 + index % 50)),
    ("created_at", .dateTime (createdAt index)),
    ("birthday", .date (birthday index)),
    ("active", .bool (index % 2 == 0)),
    ("metadata", metadata index)]

/-- `count` records and their number. -/
def people (count : Nat) : Value :=
  named [
    ("data", .array ((List.range count).map person)),
    ("total", .ofInt count)]

/-- The records as a document. -/
def document (count : Nat) : Except EncodeError String := do
  let bytes ← Encoder.encode {} (people count)
  return Utf8.decodeLossy bytes

end JsonCodec.People
