/-
The text of dates, times and datetimes, without quotes: values and keys share it.

A year from 0 to 9999 has four digits; any other stands behind its sign with as many digits as it
needs. The fraction of a second has six digits and is left out if they are zero. An offset has
seconds only if it needs them.
-/
import JsonCodec.Digits
import JsonCodec.EncodeError
import JsonCodec.Options
import JsonCodec.Temporal

namespace JsonCodec

open Ascii

/-- `YYYY-MM-DD`. -/
def Date.text (d : Date) : Bytes :=
  let year :=
    if 0 ≤ d.year ∧ d.year ≤ 9999 then Digits.padded d.year.natAbs 4 else Digits.ofIntSigned d.year
  year ++ minus :: Digits.padded d.month 2 ++ minus :: Digits.padded d.day 2

/-- `HH:MM:SS` and the fraction. -/
def TimeOfDay.text (t : TimeOfDay) (o : Options) : Bytes :=
  let clock := Digits.padded t.hour 2 ++ colon :: Digits.padded t.minute 2 ++
    colon :: Digits.padded t.second 2
  if t.microsecond = 0 ∨ o.omitMicroseconds then clock
  else clock ++ point :: Digits.padded t.microsecond 6

/-- `+HH:MM` or `+HH:MM:SS`; UTC may be `Z`. -/
def Offset.text (offset : Offset) (o : Options) : Bytes :=
  if offset.seconds = 0 ∧ o.utcZ then [capitalZ]
  else
    let sign := if offset.seconds < 0 then minus else plus
    let size := offset.seconds.natAbs
    let minutes := sign :: Digits.padded (size / 3600) 2 ++
      colon :: Digits.padded (size % 3600 / 60) 2
    if size % 60 = 0 then minutes else minutes ++ colon :: Digits.padded (size % 60) 2

/-- The time of day, and its offset if it has one. -/
def Time.text (t : Time) (o : Options) : Bytes :=
  t.time.text o ++ (t.offset.map (·.text o)).getD []

/-- The date, `T`, the time of day and the offset. A naive datetime has a text only where it is
read as UTC. -/
def DateTime.text (t : DateTime) (o : Options) : Except EncodeError Bytes :=
  match t.offset.or (if o.naiveUtc then some Offset.utc else none) with
  | some offset => .ok (t.date.text ++ capitalT :: t.time.text o ++ offset.text o)
  | none => .error .naiveDateTime

end JsonCodec
