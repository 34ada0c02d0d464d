/-
Dates, times of day and offsets from UTC, as a wall clock shows them.

A date is a day of the proleptic Gregorian calendar, with a year 0. A time of day counts
nanoseconds past a billion during a leap second. A datetime or a time without an offset is naive:
it is a reading of no clock in particular.

The ranges are those of the calendar that the values are taken from, as it describes them: years from
-262143 to 262142, nanoseconds below two billion (so that a leap second may be in any minute), and
offsets of less than a day either way, in seconds.
-/
namespace JsonCodec

/-- Every fourth year, except for three of four centuries. -/
def isLeapYear (year : Int) : Bool :=
  year % 4 == 0 && (year % 100 != 0 || year % 400 == 0)

/-- The number of days in a month; a number that is no month has none. -/
def daysInMonth (year : Int) (month : Nat) : Nat :=
  if month = 2 then (if isLeapYear year then 29 else 28)
  else if month = 4 ∨ month = 6 ∨ month = 9 ∨ month = 11 then 30
  else if 1 ≤ month ∧ month ≤ 12 then 31
  else 0

/-- No month is shorter than 28 days. -/
theorem le_daysInMonth {year : Int} {month : Nat} (h : 1 ≤ month ∧ month ≤ 12) :
    28 ≤ daysInMonth year month := by
  unfold daysInMonth
  by_cases hf : month = 2
  · rw [if_pos hf]
    split <;> decide
  · rw [if_neg hf, if_pos h]
    split <;> decide

/-- A day of the calendar. -/
structure Date where
  year : Int
  month : Nat
  day : Nat
  year_mem : -262143 ≤ year ∧ year ≤ 262142
  day_mem : 1 ≤ day ∧ day ≤ daysInMonth year month
deriving DecidableEq

namespace Date

/-- The date with these parts, if there is one. -/
def ofParts? (year : Int) (month day : Nat) : Option Date :=
  if hy : -262143 ≤ year ∧ year ≤ 262142 then
    if hd : 1 ≤ day ∧ day ≤ daysInMonth year month then some ⟨year, month, day, hy, hd⟩ else none
  else none

/-- The date that many days after 1 January 1970. Years begin in March here, so that the leap day
is the last of its year; 400 of them are an era of 146097 days. -/
def ofEpochDay? (days : Int) : Option Date :=
  let shifted := days + 719468
  let era := shifted / 146097
  let inEra := (shifted % 146097).toNat
  let yearOfEra := (inEra - inEra / 1460 + inEra / 36524 - inEra / 146096) / 365
  let inYear := inEra - (365 * yearOfEra + yearOfEra / 4 - yearOfEra / 100)
  let march := (5 * inYear + 2) / 153
  let month := if march < 10 then march + 3 else march - 9
  let year := era * 400 + yearOfEra + (if month ≤ 2 then 1 else 0)
  ofParts? year month (inYear - (153 * march + 2) / 5 + 1)

end Date

/-- A time of day. -/
structure TimeOfDay where
  hour : Nat
  minute : Nat
  second : Nat
  nanosecond : Nat
  hour_lt : hour < 24
  minute_lt : minute < 60
  second_lt : second < 60
  nanosecond_lt : nanosecond < 2000000000
deriving DecidableEq

namespace TimeOfDay

/-- The time with these parts, if there is one. -/
def ofParts? (hour minute second nanosecond : Nat) : Option TimeOfDay :=
  if h : hour < 24 ∧ minute < 60 ∧ second < 60 ∧ nanosecond < 2000000000 then
    some ⟨hour, minute, second, nanosecond, h.1, h.2.1, h.2.2.1, h.2.2.2⟩
  else none

/-- The microseconds of the second; a leap second counts them anew. -/
def microsecond (t : TimeOfDay) : Nat := t.nanosecond % 1000000000 / 1000

end TimeOfDay

/-- Seconds east of UTC, less than a day either way. -/
structure Offset where
  seconds : Int
  seconds_mem : -86400 < seconds ∧ seconds < 86400
deriving DecidableEq

namespace Offset

def utc : Offset := ⟨0, by decide⟩

/-- The offset of that many seconds east, if it is less than a day. -/
def ofSeconds? (seconds : Int) : Option Offset :=
  if h : -86400 < seconds ∧ seconds < 86400 then some ⟨seconds, h⟩ else none

end Offset

/-- A date and a time of day, at an offset or naive. -/
structure DateTime where
  date : Date
  time : TimeOfDay
  offset : Option Offset
deriving DecidableEq

namespace DateTime

def isNaive (t : DateTime) : Bool := t.offset.isNone

/-- What a clock at `offset` shows that many seconds after the start of 1970 in UTC. -/
def ofUnix? (seconds : Int) (nanosecond : Nat) (offset : Offset) : Option DateTime := do
  let wall := seconds + offset.seconds
  let date ← Date.ofEpochDay? (wall / 86400)
  let inDay := (wall % 86400).toNat
  let time ← TimeOfDay.ofParts? (inDay / 3600) (inDay / 60 % 60) (inDay % 60) nanosecond
  return ⟨date, time, some offset⟩

end DateTime

/-- A time of day, at an offset or naive. -/
structure Time where
  time : TimeOfDay
  offset : Option Offset
deriving DecidableEq

end JsonCodec
