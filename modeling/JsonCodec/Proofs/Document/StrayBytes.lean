/-
Bytes beyond ASCII that are at fault, and what is said of them (`decodeWithin_beyondAscii`). Where no
character begins, the input is said not to be UTF-8: between tokens and in texts, but not behind a
whole document, nor in a number that wants a digit.
-/
import JsonCodec.Proofs.Document.FaultPlaces

namespace JsonCodec.Document

open Ascii Grammar NumberLiteral

/-- A whole document of so many levels. -/
def IsWhole (n : Nat) (front : Bytes) : Prop := ∃ v, Spaced exponentSize n front v

/-- A front of a document of so many levels that ends in a number, where a digit of the fraction or of
the exponent is due. -/
def LacksDigit (n : Nat) (front : Bytes) : Prop :=
  ∃ before number levels first, front = before ++ number ∧
    Begun number.head? .document n before levels (.value first) ∧ DigitDue none false number

variable {bounds : Bounds} {input number front : Bytes} {c m : Cursor} {b : UInt8} {f : Fault}
  {next : Option UInt8} {first : Bool} {n : Nat}

/-! ## Bytes beyond ASCII -/

theorem beq_of_beyond {a : UInt8} (ha : a.toNat < 0x80) (hb : 0x80 ≤ b.toNat) :
    (b == a) = false := by
  refine beq_false_of_ne ?_
  rintro rfl
  exact absurd hb (Nat.not_le_of_lt ha)

theorem isDigit_of_beyond (hb : 0x80 ≤ b.toNat) : isDigit b = false := by
  refine Bool.eq_false_iff.2 fun h => ?_
  have hascii := toNat_lt_of_isPlainByte (PlainBytes.isPlainByte_of_isDigit h)
  exact absurd hb (Nat.not_le_of_lt hascii)

theorem isNumberByte_of_beyond (hb : 0x80 ≤ b.toNat) : isNumberByte b = false := by
  rw [isNumberByte, isExponentLetter, isDigit_of_beyond hb, beq_of_beyond (by decide) hb,
    beq_of_beyond (by decide) hb, beq_of_beyond (by decide) hb]
  rfl

theorem isBlank_of_beyond (hb : 0x80 ≤ b.toNat) : isBlank b = false := by
  rw [isBlank, beq_of_beyond (by decide) hb, beq_of_beyond (by decide) hb,
    beq_of_beyond (by decide) hb, beq_of_beyond (by decide) hb]
  rfl

/-! ## Numbers that want a digit -/

theorem digitDue_none (h : DigitDue next first number) : DigitDue none first number := by
  have none {p : UInt8 → Prop} : ∀ b ∈ (none : Option UInt8), p b := fun b hb => by cases hb
  cases h with
  | whole negative => exact .whole negative fun _ => none
  | fraction negative hw => exact .fraction negative hw
  | exponent negative hw hf hl hs => exact .exponent negative hw hf hl hs fun _ => none

theorem digitDue_of_beyond (hb : 0x80 ≤ b.toNat) (h : DigitDue none first number) :
    DigitDue (some b) first number := by
  have some {p : UInt8 → Prop} (h : p b) : ∀ x ∈ (some b : Option UInt8), p x := fun x hx => by
    cases hx
    exact h
  cases h with
  | whole negative => exact .whole negative fun _ => some (beq_of_beyond (by decide) hb)
  | fraction negative hw => exact .fraction negative hw
  | exponent negative hw hf hl hs =>
    refine .exponent negative hw hf hl hs fun _ => some ?_
    rw [beq_of_beyond (by decide) hb, beq_of_beyond (by decide) hb]
    rfl

/-- In front of a digit of the fraction or the exponent a number has begun. -/
theorem exists_head_of_digitDue (h : DigitDue next false number) :
    ∃ x, number.head? = some x ∧ (x = minus ∨ isDigit x = true) := by
  have front (negative : Bool) {whole : Bytes} (hw : Digits.isCanonical whole = true)
      (rest : Bytes) : ∃ x, ((if negative then [minus] else []) ++ whole ++ rest).head? = some x ∧
        (x = minus ∨ isDigit x = true) := by
    cases negative with
    | true => exact ⟨minus, rfl, .inl rfl⟩
    | false =>
      obtain ⟨hne, hall, -⟩ := Digits.isCanonical_iff.1 hw
      obtain ⟨x, digits, rfl⟩ := List.exists_cons_of_ne_nil hne
      exact ⟨x, rfl, .inr (hall x List.mem_cons_self)⟩
  cases h with
  | fraction negative hw => exact front negative hw _
  | exponent negative hw => exact front negative hw _

/-! ## Faults behind a front -/

/-- What goes on with no number ends a value. -/
theorem finished_of_spaced {v : Value} (h : Spaced exponentSize n front v)
    (hn : ∀ x ∈ next, isNumberByte x = false) : Finished next n front v := by
  cases h with
  | @mk _ before bytes after _ hb h ha =>
    refine .mk hb h ha fun literal _ x hx => ?_
    have hx : isNumberByte x = false := by
      cases after with
      | nil => exact hn x hx
      | cons a after =>
        cases hx
        rcases isBlank_iff.1 (ha x List.mem_cons_self) with rfl | rfl | rfl | rfl <;> rfl
    exact Bool.eq_false_iff.2 fun hgoes => by rw [isNumberByte_of_goesOn hgoes] at hx; cases hx

/-- Behind a whole document there is to be nothing. -/
theorem breaks_of_isWhole (hp : c.Passes front m) (hb : m.peek = some b) (hbeyond : 0x80 ≤ b.toNat)
    (h : IsWhole n front) : Breaks .document n c ⟨.trailingCharacters, m.pos⟩ := by
  obtain ⟨v, h⟩ := h
  have hne : m.rest ≠ [] := by
    intro hnil
    rw [Cursor.peek, hnil] at hb
    cases hb
  have hstops : m.Stops isNumberByte := Cursor.stops_of_peek hb (isNumberByte_of_beyond hbeyond)
  exact ⟨front, n, .documentEnd, m, .documentEnd (finished_of_spaced h hstops), hp,
    Cursor.stops_of_peek hb (isBlank_of_beyond hbeyond), .documentEnd hne⟩

/-- Where a digit is due, a digit is to come. -/
theorem breaks_of_lacksDigit (hp : c.Passes front m) (hb : m.peek = some b)
    (hbeyond : 0x80 ≤ b.toNat) (h : LacksDigit n front) :
    Breaks .document n c ⟨.invalidNumber, m.pos⟩ := by
  obtain ⟨before, number, levels, first, rfl, hbegun, hdue⟩ := h
  obtain ⟨site, hps, hpn⟩ := Cursor.passes_append.1 hp
  obtain ⟨x, hx, hnumber⟩ := exists_head_of_digitDue hdue
  have hpeek : site.peek = number.head? := by
    rw [hpn.peek_eq, hx]
    rfl
  have hblank : isBlank x = false := by
    refine Bool.eq_false_iff.2 fun h => ?_
    rcases isBlank_iff.1 h with rfl | rfl | rfl | rfl <;> revert hnumber <;> decide
  have hend : m.atEnd = false := by
    obtain ⟨rest, hrest⟩ := List.head?_eq_some_iff.1 hb
    rw [Cursor.atEnd, hrest]
    rfl
  have hparts : parts site = .error ⟨.invalidNumber, m.pos⟩ := by
    refine parts_eq_error_iff.2 ⟨false, number, m, hb ▸ digitDue_of_beyond hbeyond hdue, hpn,
      Cursor.stops_of_peek hb (isDigit_of_beyond hbeyond), ?_⟩
    rw [noDigit, hend]
    rfl
  exact ⟨before, levels, .value first, site, hpeek ▸ hbegun, hps,
    Cursor.stops_of_peek (hpeek.trans hx) hblank,
    .number (hpeek.trans hx) hnumber (read_failsWith_iff.2 (.inl hparts))⟩

/-- The end of a document is due behind a whole one. -/
theorem Begun.of_documentEnd {part : Part} {levels : Nat} {site : Site}
    (h : Begun next part n front levels site) (hs : site = .documentEnd) :
    part = .document ∧ IsWhole n front := by
  induction h with
  | value | itemEnd | key | colon | memberEnd => cases hs
  | array _ _ ih | object _ _ ih | item _ ih | nextItem _ _ ih | member _ _ ih
  | nextMember _ _ _ ih | whole _ ih => cases (ih hs).1
  | documentEnd h =>
    obtain ⟨hb, hv, ha, -⟩ := h
    exact ⟨rfl, _, .mk hb hv ha⟩

/-! ## What is said -/

theorem next?_eq_none_iff_not_begins :
    Utf8.next? front = none ↔ ∀ x, ¬String.utf8EncodeChar x <+: front := by
  constructor
  · rintro h x ⟨rest, rfl⟩
    rw [Utf8.next?_encodeChar] at h
    cases h
  · intro h
    refine Option.eq_none_iff_forall_ne_some.2 fun found hn => ?_
    exact h found.1 ⟨found.2, (Utf8.next?_eq_some_iff.1 hn).symm⟩

/-- What a token was expected for is worded in its own way. -/
theorem message_of_mem_expectations {reason : Reason} (h : reason ∈ expectations) :
    reason.message ≠ "trailing characters" ∧ reason.message ≠ "invalid number" ∧
      reason.message ≠ "invalid UTF-8" := by
  simp only [expectations, List.mem_cons, List.not_mem_nil, or_false] at h
  rcases h with rfl | rfl | rfl | rfl | rfl <;> decide

/-- The wordings at the two places that have their own, given which places these are. -/
theorem Stray.message_iff {site : Site} {ahead rest : Bytes} {reason : Reason} {atEnd wanting : Prop}
    (h : Stray site ahead rest reason) (hend : atEnd → reason = .trailingCharacters)
    (hwanting : wanting → reason = .invalidNumber)
    (of_documentEnd : site = .documentEnd → ahead = [] → atEnd)
    (of_digit : ∀ first, site = .value first → DigitDue rest.head? false ahead → wanting) :
    (reason.message = "trailing characters" ↔ atEnd) ∧ (reason.message = "invalid number" ↔ wanting) ∧
      (¬atEnd → ¬wanting → (reason.message = "invalid UTF-8" ↔ Utf8.next? rest = none)) := by
  cases h with
  | malformed hn =>
    exact ⟨iff_of_false (by decide) fun h => (nomatch hend h),
      iff_of_false (by decide) fun h => (nomatch hwanting h), fun _ _ => iff_of_true rfl hn⟩
  | unexpected hr hn =>
    obtain ⟨htrailing, hnumber, hutf8⟩ := message_of_mem_expectations hr
    refine ⟨iff_of_false htrailing fun h => ?_, iff_of_false hnumber fun h => ?_,
      fun _ _ => iff_of_false hutf8 hn⟩
    · rw [hend h] at htrailing
      exact htrailing rfl
    · rw [hwanting h] at hnumber
      exact hnumber rfl
  | @digit first hs hdue =>
    have hw := of_digit first hs hdue
    exact ⟨iff_of_false (by decide) fun h => (nomatch hend h), iff_of_true rfl hw,
      fun _ h => absurd hw h⟩
  | documentEnd hs hahead =>
    have he := of_documentEnd hs hahead
    exact ⟨iff_of_true rfl he, iff_of_false (by decide) fun h => (nomatch hwanting h),
      fun h => absurd he h⟩

/-- What goes wrong at a byte beyond ASCII goes wrong behind a site, and that is said of the byte. -/
theorem exists_stray (h : Breaks .document n (Cursor.ofBytes input) f)
    (hb : input[f.position]? = some b) (hbeyond : 0x80 ≤ b.toNat) :
    ∃ bytes levels site ahead m, (Cursor.ofBytes input).Passes (bytes ++ ahead) m ∧
      Begun (ahead.head?.or (some b)) .document n bytes levels site ∧ m.peek = some b ∧
      f.position = m.pos ∧ Stray site ahead m.rest f.reason := by
  obtain ⟨bytes, levels, site, c, hbegun, hp, -, hf⟩ := h
  obtain ⟨ahead, m, hpm, hfound⟩ := hf.exists_foundAt
  have hpass := hp.trans hpm
  have hpos : f.position = (bytes ++ ahead).length := hfound.position_eq.trans hpass.pos_eq
  have hinput : input = bytes ++ ahead ++ m.rest := hpass.1
  have hpeek : m.peek = some b := by
    rw [← hb, hpos, hinput, List.getElem?_append_right (Nat.le_refl _), Nat.sub_self, Cursor.peek,
      List.head?_eq_getElem?]
  rw [hpm.peek_eq, hpeek] at hbegun
  exact ⟨bytes, levels, site, ahead, m, hpass, hbegun, hpeek, hfound.position_eq,
    hfound.stray b hpeek hbeyond⟩

/-- **Bytes beyond ASCII at fault.** Behind a whole document, any byte is said to be trailing; where a
number wants a digit, the number is said to be invalid. Anywhere else the input is said not to be UTF-8
just if no character begins at the byte. -/
theorem decodeWithin_beyondAscii {d : Diagnostic} (hsize : input.length ≤ bounds.maxInputSize)
    (h : decodeWithin bounds input = .error d) (hb : input[d.position]? = some b)
    (hbeyond : 0x80 ≤ b) :
    (d.message = "trailing characters" ↔ IsWhole bounds.maxDepth (input.take d.position)) ∧
    (d.message = "invalid number" ↔ LacksDigit bounds.maxDepth (input.take d.position)) ∧
    (¬IsWhole bounds.maxDepth (input.take d.position) →
      ¬LacksDigit bounds.maxDepth (input.take d.position) →
      (d.message = "invalid UTF-8" ↔
        ∀ x, ¬String.utf8EncodeChar x <+: input.drop d.position)) := by
  have hbeyond := UInt8.le_iff_toNat_le.1 hbeyond
  have hne : input ≠ [] := by
    rintro rfl
    cases hb
  have read_iff (g : Fault) : read bounds input = .error g ↔
      Breaks .document bounds.maxDepth (Cursor.ofBytes input) g := by
    simp [read_eq_error_iff, hne, hsize, Nat.not_lt_of_le hsize]
  cases hr : read bounds input with
  | ok v =>
    rw [(decodeWithin_eq_ok_iff _ _).2 hr] at h
    cases h
  | error f =>
    rw [decodeWithin_eq_error_of_read hr] at h
    cases h
    obtain ⟨bytes, levels, site, ahead, m, hp, hbegun, hpeek, hpos, hstray⟩ :=
      exists_stray ((read_iff f).1 hr) hb hbeyond
    have reason_eq {g : Fault} (h : Breaks .document bounds.maxDepth (Cursor.ofBytes input) g) :
        f.reason = g.reason := by
      rw [(read_iff g).2 h] at hr
      cases hr
      rfl
    have hinput : input = bytes ++ ahead ++ m.rest := hp.1
    have hplace : (f.inDocument input).position = (bytes ++ ahead).length := hpos.trans hp.pos_eq
    have htake : input.take (bytes ++ ahead).length = bytes ++ ahead := by rw [hinput, List.take_left]
    have hdrop : input.drop (bytes ++ ahead).length = m.rest := by rw [hinput, List.drop_left]
    rw [hplace, htake, hdrop, ← next?_eq_none_iff_not_begins]
    refine hstray.message_iff (fun h => reason_eq (breaks_of_isWhole hp hpeek hbeyond h))
      (fun h => reason_eq (breaks_of_lacksDigit hp hpeek hbeyond h)) ?_ ?_
    · rintro rfl rfl
      rw [List.append_nil]
      exact (hbegun.of_documentEnd rfl).2
    · rintro first rfl hdue
      obtain ⟨x, hx, -⟩ := exists_head_of_digitDue hdue
      rw [hx, Option.some_or, ← hx] at hbegun
      exact ⟨bytes, ahead, levels, first, rfl, hbegun, digitDue_none hdue⟩

/-- A key of two bytes is behind the site, and no character begins where the value would. -/
theorem decodeWithin_beyondAscii_value :
    let input := Utf8.encode "\x7b\"é\":" ++ [0xFF]
    decodeWithin ⟨1, 64⟩ input = .error (Fault.inDocument ⟨.invalidUtf8, 6⟩ input) ∧
      ∀ x, ¬String.utf8EncodeChar x <+: [0xFF] := by
  intro input
  have hkey : Key ([] ++ Quoted.literal false "é" ++ []) "é" :=
    .mk (List.forall_mem_nil _) (text_literal false "é") (List.forall_mem_nil _)
  have hbegun : Begun (some 0xFF) .document 1
      ([] ++ braceOpen :: ([] ++ Quoted.literal false "é" ++ [] ++ colon :: [])) 0 (.value false) :=
    .whole (.object (List.forall_mem_nil _) (.member hkey (.value (List.forall_mem_nil _))))
  have hbreaks : Breaks .document 1 (Cursor.ofBytes input) ⟨.invalidUtf8, 6⟩ :=
    ⟨_, _, _, ⟨6, [0xFF]⟩, hbegun, ⟨rfl, rfl⟩, Cursor.stops_of_peek rfl rfl,
      .value (fun b hb => by cases hb; rfl) (fun h => absurd h Bool.false_ne_true)⟩
  have h : decodeWithin ⟨1, 64⟩ input = .error (Fault.inDocument ⟨.invalidUtf8, 6⟩ input) :=
    decodeWithin_eq_error_of_breaks (by decide) (by decide) hbreaks
  obtain ⟨htrailing, hnumber, hutf8⟩ :=
    decodeWithin_beyondAscii (b := 0xFF) (by decide) h rfl (by decide)
  exact ⟨h, (hutf8 (mt htrailing.2 (by decide)) (mt hnumber.2 (by decide))).1 rfl⟩

/-- Behind a whole document a byte where no character begins is not said to be one. -/
theorem decode_malformed_trailing :
    ¬∀ (input : Bytes) (d : Diagnostic) (b : UInt8), input.length ≤ ({} : Bounds).maxInputSize →
      decode input = .error d → input[d.position]? = some b → 0x80 ≤ b →
      (d.message = "invalid UTF-8" ↔ ∀ x, ¬String.utf8EncodeChar x <+: input.drop d.position) := by
  intro h
  let m : Cursor := ⟨4, [0xFF]⟩
  have hp : (Cursor.ofBytes (Utf8.encode "null" ++ [0xFF])).Passes (Utf8.encode "null") m :=
    ⟨rfl, rfl⟩
  have hwhole : IsWhole ({} : Bounds).maxDepth (Utf8.encode "null") := ⟨.null, .of_denotes .null⟩
  have herror := decodeWithin_eq_error_of_breaks (by decide) (by decide)
    (breaks_of_isWhole hp rfl (by decide) hwhole)
  have hiff := h _ _ 0xFF (by decide) herror rfl (by decide)
  have hmessage := hiff.2 (next?_eq_none_iff_not_begins.1 rfl)
  exact absurd hmessage (by decide)

end JsonCodec.Document
