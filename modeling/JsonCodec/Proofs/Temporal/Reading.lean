/-
The texts of dates, times and datetimes are unambiguous: readers recover what they say
(`Date.read_text`, `Time.read_text`, `DateTime.read_text`), and so values with one text agree in it
(`temporal_texts_unambiguous`).

A reader is not told how long a part is. The year, the fraction and the seconds of an offset may each
be longer or shorter, so a lemma on one of these says which byte may not come next.
-/
import JsonCodec.Proofs.PlainBytes
import JsonCodec.Proofs.Temporal.Layout

namespace JsonCodec

open Ascii Digits

/-! ## Readers -/

/-- A reader takes what it reads from the front of a text. -/
abbrev TextReader := StateT Bytes Option

namespace TextReader

variable {α β : Type} {b : UInt8} {text rest : Bytes}

/-- Takes the byte if it comes next, and says whether it did. -/
def accept (b : UInt8) : TextReader Bool := fun text =>
  some (if text.head? = some b then (true, text.tail) else (false, text))

/-- Takes the byte, which has to come next. -/
def expect (b : UInt8) : TextReader Unit := fun text =>
  if text.head? = some b then some ((), text.tail) else none

/-- A number of exactly so many digits. -/
def field (width : Nat) : TextReader Nat := fun text =>
  if (text.take width).length = width ∧ (text.take width).all isDigit then
    some (value (text.take width), text.drop width)
  else none

/-- A number of as many digits as come next. -/
def number : TextReader Nat := fun text =>
  some (value (text.takeWhile isDigit), text.dropWhile isDigit)

/-- What a reader finds in a text that it reads to the end. -/
def whole (reader : TextReader α) (text : Bytes) : Option α :=
  (reader text).bind fun p => if p.2 = [] then some p.1 else none

theorem bind_of_some {reader : TextReader α} {next : α → TextReader β} {a : α}
    (h : reader text = some (a, rest)) : (reader >>= next) text = next a rest := by
  show (reader text).bind _ = _
  rw [h]
  rfl

@[simp] theorem pure_apply (a : α) : (pure a : TextReader α) text = some (a, text) := rfl

theorem whole_of_some {reader : TextReader α} {a : α} (h : reader text = some (a, [])) :
    whole reader text = some a := by
  rw [whole, h, Option.bind_some, if_pos rfl]

theorem accept_cons : accept b (b :: rest) = some (true, rest) := by
  rw [accept, List.head?_cons, if_pos rfl, List.tail_cons]

theorem accept_of_ne (h : text.head? ≠ some b) : accept b text = some (false, text) := by
  rw [accept, if_neg h]

theorem expect_cons : expect b (b :: rest) = some ((), rest) := by
  rw [expect, List.head?_cons, if_pos rfl, List.tail_cons]

theorem field_append {width n : Nat} {digits : Bytes} (h : IsField width n digits) :
    field width (digits ++ rest) = some (n, rest) := by
  have hall : digits.all isDigit = true := List.all_eq_true.2 h.isDigit_of_mem
  rw [field, List.take_left' h.length_eq, List.drop_left' h.length_eq, if_pos ⟨h.length_eq, hall⟩,
    h.value_eq]

theorem number_append {digits : Bytes} (h : ∀ b ∈ digits, isDigit b = true)
    (hrest : ∀ b, rest.head? = some b → isDigit b = false) :
    number (digits ++ rest) = some (value digits, rest) := by
  have hnone : rest.takeWhile isDigit = [] ∧ rest.dropWhile isDigit = rest := by
    cases rest with
    | nil => exact ⟨rfl, rfl⟩
    | cons b rest =>
      have hb := hrest b rfl
      rw [List.takeWhile_cons_of_neg (by simp [hb]), List.dropWhile_cons_of_neg (by simp [hb])]
      exact ⟨rfl, rfl⟩
  rw [number, List.takeWhile_append_of_pos h, List.dropWhile_append_of_pos h, hnone.1, hnone.2,
    List.append_nil]

end TextReader

/-- A field does not begin with a separator. -/
theorem Digits.IsField.head?_ne {width n : Nat} {digits : Bytes} (h : IsField (width + 1) n digits)
    (rest : Bytes) {b : UInt8} (hb : isDigit b = false) : (digits ++ rest).head? ≠ some b := by
  have hlength := h.length_eq
  cases digits with
  | nil => cases hlength
  | cons d digits =>
    intro hhead
    obtain rfl : d = b := by simpa using hhead
    have hdigit := h.isDigit_of_mem d List.mem_cons_self
    rw [hb] at hdigit
    cases hdigit

/-! ## What the texts say -/

/-- What the text of a date says. -/
structure DateParts where
  year : Int
  month : Nat
  day : Nat
deriving DecidableEq

def Date.parts (d : Date) : DateParts := ⟨d.year, d.month, d.day⟩

/-- What the text of a time of day says where no fraction is left out. -/
structure ClockParts where
  hour : Nat
  minute : Nat
  second : Nat
  microsecond : Nat
deriving DecidableEq

def TimeOfDay.parts (t : TimeOfDay) : ClockParts := ⟨t.hour, t.minute, t.second, t.microsecond⟩

/-- The offset that the text of a datetime says: naive ones are read as UTC. -/
def DateTime.writtenOffset (t : DateTime) : Offset := t.offset.getD .utc

theorem DateTime.writtenOffset_eq {t : DateTime} {o : Options} {z : Offset}
    (h : t.offset.or (if o.naiveUtc then some Offset.utc else none) = some z) :
    t.writtenOffset = z := by
  unfold writtenOffset
  cases hoffset : t.offset with
  | none =>
    rw [hoffset, Option.none_or] at h
    split at h
    · exact Option.some.inj h
    · cases h
  | some y =>
    rw [hoffset, Option.some_or] at h
    exact Option.some.inj h

theorem DateTime.writtenOffset_seconds (t : DateTime) :
    t.writtenOffset.seconds = (t.offset.map (·.seconds)).getD 0 := by
  unfold writtenOffset
  cases t.offset <;> rfl

namespace TextReader

def sign : TextReader UInt8 := do
  if ← accept minus then
    return minus
  else
    expect plus
    return plus

/-- A year without a sign has four digits. -/
def year : TextReader Int := do
  if ← accept minus then
    return signed minus (← number)
  else if ← accept plus then
    return signed plus (← number)
  else
    return (← field 4)

def date : TextReader DateParts := do
  let year ← year
  expect minus
  let month ← field 2
  expect minus
  let day ← field 2
  return ⟨year, month, day⟩

/-- A time of day. There are no microseconds where there is no point. -/
def clock : TextReader ClockParts := do
  let hour ← field 2
  expect colon
  let minute ← field 2
  expect colon
  let second ← field 2
  if ← accept point then
    return ⟨hour, minute, second, ← field 6⟩
  else
    return ⟨hour, minute, second, 0⟩

/-- The seconds of an offset. -/
def offset : TextReader Int := do
  if ← accept capitalZ then
    return 0
  else
    let sign ← sign
    let hour ← field 2
    expect colon
    let minute ← field 2
    if ← accept colon then
      let second ← field 2
      return signed sign (hour * 3600 + minute * 60 + second)
    else
      return signed sign (hour * 3600 + minute * 60)

def atEnd : TextReader Bool := fun text => some (text.isEmpty, text)

/-- A time without an offset ends behind the time of day. -/
def time : TextReader (ClockParts × Option Int) := do
  let clock ← clock
  if ← atEnd then
    return (clock, none)
  else
    return (clock, some (← offset))

def dateTime : TextReader (DateParts × ClockParts × Int) := do
  let date ← date
  expect capitalT
  let clock ← clock
  return (date, clock, ← offset)

variable {o : Options} {rest : Bytes}

/-! ## Reading what is laid out -/

theorem sign_cons {b : UInt8} (h : IsSign b) : sign (b :: rest) = some (b, rest) := by
  unfold sign
  rcases h with h | h <;> rw [h]
  · rw [bind_of_some (accept_of_ne (by simp [plus, minus])), if_neg Bool.false_ne_true,
      bind_of_some expect_cons, pure_apply]
  · rw [bind_of_some accept_cons, if_pos rfl, pure_apply]

theorem year_append {y : Int} {bytes : Bytes} (h : YearLayout y bytes)
    (hrest : ∀ b, rest.head? = some b → isDigit b = false) :
    year (bytes ++ rest) = some (y, rest) := by
  unfold year
  cases h with
  | four h =>
    rw [bind_of_some (accept_of_ne (h.head?_ne rest rfl)), if_neg Bool.false_ne_true,
      bind_of_some (accept_of_ne (h.head?_ne rest rfl)), if_neg Bool.false_ne_true,
      bind_of_some (field_append h), pure_apply]
  | signed hs h _ =>
    have hnumber := number_append (isCanonical_iff.1 h).2.1 hrest
    rw [List.cons_append]
    rcases hs with hs | hs <;> rw [hs]
    · rw [bind_of_some (accept_of_ne (by simp [plus, minus])), if_neg Bool.false_ne_true,
        bind_of_some accept_cons, if_pos rfl, bind_of_some hnumber, pure_apply]
    · rw [bind_of_some accept_cons, if_pos rfl, bind_of_some hnumber, pure_apply]

theorem date_append {d : Date} {bytes : Bytes} (h : d.Layout bytes) :
    date (bytes ++ rest) = some (d.parts, rest) := by
  obtain ⟨hyear, hmonth, hday⟩ := h
  have hminus (after : Bytes) (b : UInt8) (hb : (minus :: after).head? = some b) :
      isDigit b = false := by
    cases hb
    rfl
  unfold date
  simp only [List.append_assoc, List.cons_append]
  rw [bind_of_some (year_append hyear (hminus _)), bind_of_some expect_cons,
    bind_of_some (field_append hmonth), bind_of_some expect_cons, bind_of_some (field_append hday),
    pure_apply]
  rfl

/-- A time of day is read up to what is no fraction. -/
theorem clock_append {t : TimeOfDay} {bytes : Bytes} (ho : o.omitMicroseconds = false)
    (h : t.Layout o bytes) (hrest : rest.head? ≠ some point) :
    clock (bytes ++ rest) = some (t.parts, rest) := by
  unfold clock
  cases h with
  | whole hh hm hs hf =>
    have hzero : t.microsecond = 0 := by simpa only [ho, Bool.false_eq_true, or_false] using hf
    simp only [List.append_assoc, List.cons_append]
    rw [bind_of_some (field_append hh), bind_of_some expect_cons, bind_of_some (field_append hm),
      bind_of_some expect_cons, bind_of_some (field_append hs), bind_of_some (accept_of_ne hrest),
      if_neg Bool.false_ne_true, pure_apply, TimeOfDay.parts, hzero]
  | fraction hh hm hs hf =>
    simp only [List.append_assoc, List.cons_append]
    rw [bind_of_some (field_append hh), bind_of_some expect_cons, bind_of_some (field_append hm),
      bind_of_some expect_cons, bind_of_some (field_append hs), bind_of_some accept_cons,
      if_pos rfl, bind_of_some (field_append hf), pure_apply]
    rfl

/-- An offset is read up to what are no seconds. -/
theorem offset_append {z : Int} {bytes : Bytes} (h : OffsetLayout o z bytes)
    (hrest : rest.head? ≠ some colon) : offset (bytes ++ rest) = some (z, rest) := by
  have hsigned {b : UInt8} {after : Bytes} (hb : IsSign b) : (b :: after).head? ≠ some capitalZ := by
    rcases hb with hb | hb <;> simp [hb, plus, minus, capitalZ]
  unfold offset
  cases h with
  | utc _ => rw [List.singleton_append, bind_of_some accept_cons, if_pos rfl, pure_apply]
  | minutes hsign hh hm =>
    simp only [List.append_assoc, List.cons_append]
    rw [bind_of_some (accept_of_ne (hsigned hsign)), if_neg Bool.false_ne_true,
      bind_of_some (sign_cons hsign), bind_of_some (field_append hh), bind_of_some expect_cons,
      bind_of_some (field_append hm), bind_of_some (accept_of_ne hrest), if_neg Bool.false_ne_true,
      pure_apply]
  | seconds hsign hh hm hs _ =>
    simp only [List.append_assoc, List.cons_append]
    rw [bind_of_some (accept_of_ne (hsigned hsign)), if_neg Bool.false_ne_true,
      bind_of_some (sign_cons hsign), bind_of_some (field_append hh), bind_of_some expect_cons,
      bind_of_some (field_append hm), bind_of_some accept_cons, if_pos rfl,
      bind_of_some (field_append hs), pure_apply]

theorem offset_of_layout {z : Int} {bytes : Bytes} (h : OffsetLayout o z bytes) :
    offset bytes = some (z, []) := by
  have hread : offset (bytes ++ []) = some (z, []) := offset_append h (by simp)
  rwa [List.append_nil] at hread

/-- An offset begins with `Z` or a sign. -/
theorem exists_cons_of_offsetLayout {z : Int} {bytes : Bytes} (h : OffsetLayout o z bytes) :
    ∃ b after, bytes = b :: after ∧ b ≠ point := by
  have hne {b : UInt8} (hb : IsSign b) : b ≠ point := by
    rcases hb with hb | hb <;> rw [hb] <;> decide
  cases h with
  | utc _ => exact ⟨capitalZ, [], rfl, by decide⟩
  | minutes hsign _ _ => exact ⟨_, _, rfl, hne hsign⟩
  | seconds hsign _ _ _ _ => exact ⟨_, _, rfl, hne hsign⟩

theorem time_of_layout {t : Time} {text : Bytes} (ho : o.omitMicroseconds = false)
    (h : t.Layout o text) :
    time text = some ((t.time.parts, t.offset.map (·.seconds)), []) := by
  unfold time
  -- A naive time is told by the end of the text, so its clock is read up to that.
  cases h with
  | naive h hn =>
    have hclock : clock (text ++ []) = some (t.time.parts, []) := clock_append ho h (by simp)
    rw [List.append_nil] at hclock
    rw [bind_of_some hclock, hn]
    rfl
  | aware h hz hoffset =>
    obtain ⟨b, after, rfl, hb⟩ := exists_cons_of_offsetLayout hoffset
    have hmore : atEnd (b :: after) = some (false, b :: after) := rfl
    rw [bind_of_some (clock_append ho h (by simpa using hb)), bind_of_some hmore,
      if_neg Bool.false_ne_true, bind_of_some (offset_of_layout hoffset), hz]
    rfl

theorem dateTime_of_layout {t : DateTime} {text : Bytes} (ho : o.omitMicroseconds = false)
    (h : t.Layout o text) :
    dateTime text = some ((t.date.parts, t.time.parts, t.writtenOffset.seconds), []) := by
  obtain ⟨hd, h, hz, hoffset⟩ := h
  obtain ⟨b, after, rfl, hb⟩ := exists_cons_of_offsetLayout hoffset
  have hwritten := DateTime.writtenOffset_eq hz
  unfold dateTime
  rw [bind_of_some (date_append hd), bind_of_some expect_cons,
    bind_of_some (clock_append ho h (by simpa using hb)), bind_of_some (offset_of_layout hoffset),
    hwritten]
  rfl

end TextReader

/-! ## The texts -/

variable {o : Options}

theorem Date.read_text (d : Date) : TextReader.whole .date d.text = some d.parts := by
  have hread : TextReader.date (d.text ++ []) = some (d.parts, []) :=
    TextReader.date_append d.layout_text
  rw [List.append_nil] at hread
  exact TextReader.whole_of_some hread

theorem Time.read_text (t : Time) (ho : o.omitMicroseconds = false) :
    TextReader.whole .time (t.text o) = some (t.time.parts, t.offset.map (·.seconds)) :=
  TextReader.whole_of_some (TextReader.time_of_layout ho (t.layout_text o))

theorem DateTime.read_text {t : DateTime} {text : Bytes} (ho : o.omitMicroseconds = false)
    (h : t.text o = .ok text) :
    TextReader.whole .dateTime text = some (t.date.parts, t.time.parts, t.writtenOffset.seconds) :=
  TextReader.whole_of_some (TextReader.dateTime_of_layout ho (DateTime.layout_text h))

theorem Date.parts_injective {d e : Date} (h : d.parts = e.parts) : d = e := by
  cases d
  cases e
  simpa only [parts, DateParts.mk.injEq, Date.mk.injEq] using h

theorem Offset.seconds_injective {y z : Offset} (h : y.seconds = z.seconds) : y = z := by
  cases y
  cases z
  simpa only [Offset.mk.injEq] using h

theorem Date.text_injective {d e : Date} (h : d.text = e.text) : d = e := by
  have hread := d.read_text
  rw [h, e.read_text] at hread
  exact (Date.parts_injective (Option.some.inj hread)).symm

theorem Time.eq_of_text_eq {t u : Time} (ho : o.omitMicroseconds = false)
    (h : t.text o = u.text o) : t.time.parts = u.time.parts ∧ t.offset = u.offset := by
  have hread := t.read_text ho
  rw [h, u.read_text ho, Option.some.injEq, Prod.mk.injEq] at hread
  have hinjective : Function.Injective Offset.seconds := fun _ _ => Offset.seconds_injective
  exact ⟨hread.1.symm, (Option.map_injective hinjective hread.2).symm⟩

theorem DateTime.eq_of_text_eq {t u : DateTime} {text : Bytes} (ho : o.omitMicroseconds = false)
    (ht : t.text o = .ok text) (hu : u.text o = .ok text) :
    t.date = u.date ∧ t.time.parts = u.time.parts ∧ t.writtenOffset = u.writtenOffset := by
  have hread := DateTime.read_text ho ht
  rw [DateTime.read_text ho hu, Option.some.injEq, Prod.mk.injEq, Prod.mk.injEq] at hread
  obtain ⟨hdate, htime, hoffset⟩ := hread
  exact ⟨(Date.parts_injective hdate).symm, htime.symm, (Offset.seconds_injective hoffset).symm⟩

/-- A datetime has a text unless it is naive and not read as UTC. -/
theorem DateTime.text_cases (t : DateTime) (o : Options) :
    if t.offset = none ∧ o.naiveUtc = false then t.text o = .error .naiveDateTime
    else ∃ text, t.text o = .ok text := by
  unfold text
  cases hoffset : t.offset with
  | none =>
    cases hutc : o.naiveUtc with
    | false => rfl
    | true => exact ⟨_, rfl⟩
  | some z => exact ⟨_, rfl⟩

/-- **The texts of dates, times and datetimes are unambiguous.** Their fields have exactly the widths
of the layouts, none of their bytes needs an escape, and where microseconds are not left out a reader
recovers every part, so that values with the same text agree in every part of it. -/
theorem temporal_texts_unambiguous (ho : o.omitMicroseconds = false) :
    (∀ d : Date, d.Layout d.text ∧ PlainBytes d.text ∧
      TextReader.whole .date d.text = some ⟨d.year, d.month, d.day⟩) ∧
    (∀ t : Time, t.Layout o (t.text o) ∧ PlainBytes (t.text o) ∧
      TextReader.whole .time (t.text o) =
        some (⟨t.time.hour, t.time.minute, t.time.second, t.time.nanosecond % 1000000000 / 1000⟩,
          t.offset.map (·.seconds))) ∧
    (∀ t : DateTime,
      if t.offset = none ∧ o.naiveUtc = false then t.text o = .error .naiveDateTime
      else ∃ text, t.text o = .ok text ∧ t.Layout o text ∧ PlainBytes text ∧
        TextReader.whole .dateTime text =
          some (⟨t.date.year, t.date.month, t.date.day⟩,
            ⟨t.time.hour, t.time.minute, t.time.second, t.time.nanosecond % 1000000000 / 1000⟩,
            (t.offset.map (·.seconds)).getD 0)) ∧
    (∀ d e : Date, d.text = e.text → d = e) ∧
    (∀ t u : Time, t.text o = u.text o → t.time.parts = u.time.parts ∧ t.offset = u.offset) ∧
    (∀ (t u : DateTime) (text : Bytes), t.text o = .ok text → u.text o = .ok text →
      t.date = u.date ∧ t.time.parts = u.time.parts ∧ t.writtenOffset = u.writtenOffset) := by
  refine ⟨fun d => ?date, fun t => ?time, fun t => ?dateTime, fun d e => Date.text_injective,
    fun t u => Time.eq_of_text_eq ho, fun t u text => DateTime.eq_of_text_eq ho⟩
  case date => exact ⟨d.layout_text, .date d, d.read_text⟩
  case time => exact ⟨t.layout_text o, .time t o, t.read_text ho⟩
  case dateTime =>
    have hcases := t.text_cases o
    by_cases hnaive : t.offset = none ∧ o.naiveUtc = false
    · rw [if_pos hnaive] at hcases ⊢
      exact hcases
    · rw [if_neg hnaive] at hcases ⊢
      obtain ⟨text, htext⟩ := hcases
      have hread := DateTime.read_text ho htext
      rw [t.writtenOffset_seconds] at hread
      exact ⟨text, htext, DateTime.layout_text htext, .dateTime htext, hread⟩

/-- A leap second in the first year, at an offset west of UTC that has seconds. -/
def DateTime.farthest : DateTime where
  date := ⟨-262143, 12, 31, by decide, by decide⟩
  time := ⟨23, 59, 59, 1500000000, by decide, by decide, by decide, by decide⟩
  offset := some ⟨-19807, by decide⟩

theorem temporal_texts_unambiguous_farthest :
    ({} : Options).omitMicroseconds = false ∧
    DateTime.farthest.text {} = .ok "-262143-12-31T23:59:59.500000-05:30:07".toUTF8.toList ∧
    TextReader.whole .dateTime "-262143-12-31T23:59:59.500000-05:30:07".toUTF8.toList =
      some (⟨-262143, 12, 31⟩, ⟨23, 59, 59, 500000⟩, -19807) := by
  have hwritten : DateTime.farthest.text {} =
      .ok "-262143-12-31T23:59:59.500000-05:30:07".toUTF8.toList := by decide +kernel
  obtain ⟨text, htext, -, -, hread⟩ :=
    (temporal_texts_unambiguous (o := {}) rfl).2.2.1 DateTime.farthest
  rw [hwritten, Except.ok.injEq] at htext
  rw [← htext] at hread
  exact ⟨rfl, hwritten, hread⟩

end JsonCodec
