/-
How the texts of dates, times and datetimes are laid out: which fields they have, how wide these are,
and what stands between them (`Date.layout_text`, `Time.layout_text`, `DateTime.layout_text`).

Every field but the year has a fixed width. A year that four digits do not hold stands behind a sign,
and so does an offset; what else tells two texts apart is said by the byte that comes next.
-/
import JsonCodec.Proofs.Padding
import JsonCodec.Temporal.Text

namespace JsonCodec

open Ascii Digits

/-- `n` with a sign in front. -/
def signed (sign : UInt8) (n : Nat) : Int := if sign = minus then -(n : Int) else n

/-- A sign. -/
def IsSign (b : UInt8) : Prop := b = plus ∨ b = minus

/-- Four digits, or a sign and as many digits as are needed. -/
inductive YearLayout : Int → Bytes → Prop
  | four {n : Nat} {digits : Bytes} (h : IsField 4 n digits) : YearLayout n digits
  | signed {sign : UInt8} {digits : Bytes} (hs : IsSign sign) (h : isCanonical digits = true)
    (hout : ¬(0 ≤ signed sign (value digits) ∧ signed sign (value digits) ≤ 9999)) :
    YearLayout (signed sign (value digits)) (sign :: digits)

/-- `YYYY-MM-DD` -/
inductive Date.Layout (d : Date) : Bytes → Prop
  | mk {year month day : Bytes} (hy : YearLayout d.year year) (hm : IsField 2 d.month month)
    (hd : IsField 2 d.day day) : Layout d (year ++ minus :: (month ++ minus :: day))

/-- `HH:MM:SS`, or `HH:MM:SS.ffffff` where there are microseconds and these are not left out. -/
inductive TimeOfDay.Layout (o : Options) (t : TimeOfDay) : Bytes → Prop
  | whole {hour minute second : Bytes} (hh : IsField 2 t.hour hour) (hm : IsField 2 t.minute minute)
    (hs : IsField 2 t.second second) (hf : t.microsecond = 0 ∨ o.omitMicroseconds = true) :
    Layout o t (hour ++ colon :: (minute ++ colon :: second))
  | fraction {hour minute second fraction : Bytes} (hh : IsField 2 t.hour hour)
    (hm : IsField 2 t.minute minute) (hs : IsField 2 t.second second)
    (hf : IsField 6 t.microsecond fraction) (hpos : t.microsecond ≠ 0)
    (ho : o.omitMicroseconds = false) :
    Layout o t (hour ++ colon :: (minute ++ colon :: (second ++ point :: fraction)))

/-- `Z`, `+HH:MM`, or `+HH:MM:SS` where the seconds are not zero. -/
inductive OffsetLayout (o : Options) : Int → Bytes → Prop
  | utc (ho : o.utcZ = true) : OffsetLayout o 0 [capitalZ]
  | minutes {sign : UInt8} {h m : Nat} {hour minute : Bytes} (hsign : IsSign sign)
    (hh : IsField 2 h hour) (hm : IsField 2 m minute) :
    OffsetLayout o (signed sign (h * 3600 + m * 60)) (sign :: (hour ++ colon :: minute))
  | seconds {sign : UInt8} {h m s : Nat} {hour minute second : Bytes} (hsign : IsSign sign)
    (hh : IsField 2 h hour) (hm : IsField 2 m minute) (hs : IsField 2 s second) (hpos : s ≠ 0) :
    OffsetLayout o (signed sign (h * 3600 + m * 60 + s))
      (sign :: (hour ++ colon :: (minute ++ colon :: second)))

/-- A time of day, and the offset if there is one. -/
inductive Time.Layout (o : Options) (t : Time) : Bytes → Prop
  | naive {clock : Bytes} (h : t.time.Layout o clock) (hn : t.offset = none) : Layout o t clock
  | aware {clock offset : Bytes} {z : Offset} (h : t.time.Layout o clock) (hz : t.offset = some z)
    (ho : OffsetLayout o z.seconds offset) : Layout o t (clock ++ offset)

/-- A date, `T`, a time of day and the offset, which is zero where a naive datetime is read as UTC. -/
inductive DateTime.Layout (o : Options) (t : DateTime) : Bytes → Prop
  | mk {date clock offset : Bytes} {z : Offset} (hd : t.date.Layout date) (h : t.time.Layout o clock)
    (hz : t.offset.or (if o.naiveUtc then some Offset.utc else none) = some z)
    (ho : OffsetLayout o z.seconds offset) : Layout o t (date ++ capitalT :: (clock ++ offset))

/-! ## The texts -/

/-- A field of two digits. -/
theorem isField_two {n : Nat} (h : n < 100) : IsField 2 n (padded n 2) :=
  isField_padded (by decide) h

theorem Date.month_le (d : Date) : d.month ≤ 12 := by
  have hday := d.day_mem
  unfold daysInMonth at hday
  by_contra hm
  rw [if_neg (by omega), if_neg (by omega), if_neg (by omega)] at hday
  omega

theorem Date.day_le (d : Date) : d.day ≤ 31 := by
  have hday := d.day_mem
  unfold daysInMonth at hday
  split_ifs at hday <;> omega

/-- The sign of a number. -/
theorem isSign_of_int (z : Int) : IsSign (if z < 0 then minus else plus) := by
  split
  · exact .inr rfl
  · exact .inl rfl

theorem signed_natAbs (z : Int) : signed (if z < 0 then minus else plus) z.natAbs = z := by
  unfold signed
  split_ifs <;> first | omega | contradiction

theorem Digits.ofIntSigned_eq (z : Int) :
    ofIntSigned z = (if z < 0 then minus else plus) :: ofNat z.natAbs := by
  unfold ofIntSigned ofInt
  split <;> rfl

theorem yearLayout_text (y : Int) :
    YearLayout y (if 0 ≤ y ∧ y ≤ 9999 then padded y.natAbs 4 else ofIntSigned y) := by
  split
  · next h =>
    have hfield : IsField 4 y.natAbs (padded y.natAbs 4) :=
      isField_padded (by decide) (show y.natAbs < 10000 by omega)
    have hlayout := YearLayout.four hfield
    rwa [show (y.natAbs : Int) = y by omega] at hlayout
  · next h =>
    have hsize : signed (if y < 0 then minus else plus) (value (ofNat y.natAbs)) = y := by
      rw [value_ofNat, signed_natAbs]
    have hlayout :=
      YearLayout.signed (isSign_of_int y) (isCanonical_ofNat y.natAbs).1 (by rwa [hsize])
    rwa [hsize, ← ofIntSigned_eq] at hlayout

theorem Date.layout_text (d : Date) : d.Layout d.text := by
  have hmonth := d.month_le
  have hday := d.day_le
  have hlayout := Date.Layout.mk (yearLayout_text d.year) (isField_two (n := d.month) (by omega))
    (isField_two (n := d.day) (by omega))
  unfold Date.text
  simpa only [List.append_assoc, List.cons_append] using hlayout

theorem TimeOfDay.microsecond_lt (t : TimeOfDay) : t.microsecond < 1000000 := by
  unfold microsecond
  omega

theorem TimeOfDay.layout_text (t : TimeOfDay) (o : Options) : t.Layout o (t.text o) := by
  have hhour := t.hour_lt
  have hminute := t.minute_lt
  have hsecond := t.second_lt
  unfold text
  simp only
  split
  · next h =>
    have hlayout := Layout.whole (isField_two (n := t.hour) (by omega))
      (isField_two (n := t.minute) (by omega)) (isField_two (n := t.second) (by omega)) h
    simpa only [List.append_assoc, List.cons_append] using hlayout
  · next h =>
    simp only [not_or, Bool.not_eq_true] at h
    have hfraction : IsField 6 t.microsecond (padded t.microsecond 6) :=
      isField_padded (by decide) t.microsecond_lt
    have hlayout := Layout.fraction (isField_two (n := t.hour) (by omega))
      (isField_two (n := t.minute) (by omega)) (isField_two (n := t.second) (by omega)) hfraction h.1 h.2
    simpa only [List.append_assoc, List.cons_append] using hlayout

theorem Offset.layout_text (z : Offset) (o : Options) : OffsetLayout o z.seconds (z.text o) := by
  obtain ⟨hlower, hupper⟩ := z.seconds_mem
  unfold text
  split
  · next h =>
    rw [h.1]
    exact .utc h.2
  · have hsign := isSign_of_int z.seconds
    have hsigned (n : Nat) (hn : n = z.seconds.natAbs) :
        signed (if z.seconds < 0 then minus else plus) n = z.seconds := by
      rw [hn, signed_natAbs]
    simp only
    split
    · next h =>
      have hlayout := OffsetLayout.minutes (o := o) hsign
        (isField_two (n := z.seconds.natAbs / 3600) (by omega))
        (isField_two (n := z.seconds.natAbs % 3600 / 60) (by omega))
      rw [hsigned _ (by omega)] at hlayout
      simpa only [List.append_assoc, List.cons_append] using hlayout
    · next h =>
      have hlayout := OffsetLayout.seconds (o := o) hsign
        (isField_two (n := z.seconds.natAbs / 3600) (by omega))
        (isField_two (n := z.seconds.natAbs % 3600 / 60) (by omega))
        (isField_two (n := z.seconds.natAbs % 60) (by omega)) h
      rw [hsigned _ (by omega)] at hlayout
      simpa only [List.append_assoc, List.cons_append] using hlayout

theorem Time.layout_text (t : Time) (o : Options) : t.Layout o (t.text o) := by
  unfold text
  cases hz : t.offset with
  | none =>
    rw [Option.map_none, Option.getD_none, List.append_nil]
    exact .naive (t.time.layout_text o) hz
  | some z => exact .aware (t.time.layout_text o) hz (z.layout_text o)

theorem DateTime.layout_text {t : DateTime} {o : Options} {text : Bytes} (h : t.text o = .ok text) :
    t.Layout o text := by
  unfold DateTime.text at h
  split at h
  · next z hz =>
    cases h
    have hlayout := Layout.mk t.date.layout_text (t.time.layout_text o) hz (z.layout_text o)
    simpa only [List.append_assoc, List.cons_append] using hlayout
  · cases h

end JsonCodec
