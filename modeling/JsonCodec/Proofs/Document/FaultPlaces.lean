/-
The place of a fault. Between the site and the place of what is wrong there stand whole characters
(`Faulty.exists_foundAt`), and in front of the site a document is whole characters too: a reader looks
at single bytes, but stops in front of a byte beyond ASCII only where a character begins or none does.

Of a byte beyond ASCII at fault it is said that no character begins there, if so, but at two places
(`Stray`).
-/
import JsonCodec.Proofs.Characters
import JsonCodec.Proofs.Document.LeftToRight
import JsonCodec.Proofs.Document.Unfinished

namespace JsonCodec.Document

open Ascii Grammar NumberLiteral
open Utf8 (IsText)

variable {c m : Cursor} {f : Fault} {n levels : Nat} {bytes ahead : Bytes} {part : Part} {site : Site}
  {next : Option UInt8} {v : Value} {reason : Reason}

/-! ## In front of a site -/

theorem Finished.isText (h : Finished next n bytes v) : IsText bytes := by
  cases h with
  | mk hb h ha _ => exact isText_spaced (.mk hb h ha)

/-- What is begun is whole characters. -/
theorem Begun.isText (h : Begun next part n bytes levels site) : IsText bytes := by
  induction h with
  | value hb | key hb => exact isText_blanks hb
  | array hb _ ih | object hb _ ih => exact (isText_blanks hb).append (.cons (by decide) ih)
  | item _ ih | whole _ ih => exact ih
  | itemEnd h | documentEnd h => exact h.isText
  | nextItem hv _ ih => exact (isText_spaced hv).append (.cons (by decide) ih)
  | colon hb h ha => exact isText_key (.mk hb h ha)
  | member hk _ ih => exact (isText_key hk).append (.cons (by decide) ih)
  | memberEnd hk h => exact (isText_key hk).append (.cons (by decide) h.isText)
  | nextMember hk hv _ ih =>
    exact (isText_key hk).append (.cons (by decide)
      ((isText_spaced hv).append (.cons (by decide) ih)))

/-! ## From a site on -/

/-- What is said where a token was to come. -/
def expectations : List Reason :=
  [.expectedValue, .expectedItemEnd, .expectedKey, .expectedColon, .expectedMemberEnd]

/-- What is said of a byte beyond ASCII that stands `ahead` of a site: that no character begins there,
or if one does, what was to come; or at two places what is said of any byte. -/
inductive Stray (site : Site) (ahead rest : Bytes) : Reason → Prop
  | malformed (h : Utf8.next? rest = none) : Stray site ahead rest .invalidUtf8
  | unexpected {reason : Reason} (hr : reason ∈ expectations) (h : Utf8.next? rest ≠ none) :
    Stray site ahead rest reason
  /-- In a number, where a digit is due. -/
  | digit {first : Bool} (hs : site = .value first) (h : DigitDue rest.head? false ahead) :
    Stray site ahead rest .invalidNumber
  | documentEnd (hs : site = .documentEnd) (h : ahead = []) :
    Stray site ahead rest .trailingCharacters

/-- The fault is at `m`, behind whole characters. -/
structure FoundAt (site : Site) (ahead : Bytes) (m : Cursor) (f : Fault) : Prop where
  isText : IsText ahead
  position_eq : f.position = m.pos
  stray : ∀ b ∈ m.peek, 0x80 ≤ b.toNat → Stray site ahead m.rest f.reason

/-- At a byte of ASCII nothing is to be shown of stray ones. -/
theorem FoundAt.of_ascii (h : IsText ahead) (hp : f.position = m.pos)
    (hm : ∀ b ∈ m.peek, b.toNat < 0x80) : FoundAt site ahead m f :=
  ⟨h, hp, fun b hb hle => absurd (hm b hb) (Nat.not_lt_of_le hle)⟩

/-- Where a token was to come, the place is the site itself. -/
theorem foundAt_unexpected (hr : reason ∈ expectations) :
    FoundAt site [] c (c.unexpected reason) := by
  refine ⟨.nil, ?_, fun b hb hle => ?_⟩
  · rw [Cursor.unexpected]
    split
    · rfl
    · split <;> rfl
  · obtain ⟨rest, hrest⟩ := List.head?_eq_some_iff.1 hb
    have hbeyond : (0x80 ≤ b) = True := eq_true (UInt8.le_iff_toNat_le.2 hle)
    simp only [Cursor.unexpected, hrest, Utf8.startsWithChar, hbeyond, decide_true, Bool.true_and]
    cases hn : Utf8.next? (b :: rest) with
    | none => exact .malformed hn
    | some found => exact .unexpected hr (by simp [hn])

/-! ## In a literal -/

/-- What is wrong with an escape is found at a backslash. -/
theorem exists_of_wrong {after : Bytes} {place : Nat} (h : Escape.Wrong after reason place) :
    ∃ front rest, backslash :: after = front ++ backslash :: rest ∧ front.length = place ∧
      IsText front := by
  cases h with
  | letter | digits | low | alone | mismatch => exact ⟨[], _, rfl, rfl, .nil⟩
  | @lowDigits high rest m hh _ _ =>
    refine ⟨backslash :: letterU :: high, letterU :: rest, rfl, ?_, ?_⟩
    · rw [List.length_cons, List.length_cons, Escape.length_of_codeUnit hh]
    · exact .cons (by decide) (.cons (by decide) (isText_codeUnit hh))

theorem exists_foundAt_of_text (hq : c.peek = some quote) (h : StringLiteral.read.FailsWith c f) :
    ∃ ahead m, c.Passes ahead m ∧ FoundAt site ahead m f := by
  obtain ⟨done, chars, m, hp, hc, hbroken⟩ := (StringLiteral.read_failsWith_iff hq).1 h
  have hdone : IsText (quote :: done) := .cons (by decide) (isText_chars hc)
  have hopened : ∃ ahead m, c.Passes ahead m ∧ FoundAt site ahead m ⟨.unterminatedString, c.pos⟩ := by
    refine ⟨[], c, Cursor.passes_nil.2 rfl, .of_ascii .nil rfl fun b hb => ?_⟩
    obtain rfl := Option.some.inj (hq.symm.trans hb)
    decide
  generalize hrest : m.rest = rest at hbroken
  cases hbroken with
  | ended | cut => exact hopened
  | @escape after reason place stop hbad =>
    obtain ⟨front, rest, heq, rfl, hfront⟩ :=
      exists_of_wrong (Escape.exists_read_eq_bad_iff.1 ⟨stop, hbad⟩)
    refine ⟨quote :: done ++ front, ⟨m.pos + front.length, backslash :: rest⟩,
      hp.trans ⟨hrest.trans heq, rfl⟩, .of_ascii (hdone.append hfront) rfl fun b hb => ?_⟩
    cases hb
    decide
  | @control b after hb =>
    refine ⟨quote :: done, m, hp, .of_ascii hdone rfl fun x hx => ?_⟩
    rw [Cursor.peek, hrest] at hx
    cases hx
    have hlt := UInt8.lt_iff_toNat_lt.1 (of_decide_eq_true hb)
    exact Nat.lt_trans hlt (by decide)
  | encoding _ _ hnext =>
    refine ⟨quote :: done, m, hp, hdone, rfl, fun _ _ _ => .malformed ?_⟩
    rw [hrest]
    exact hnext

theorem isText_digitDue {first : Bool} (h : DigitDue next first bytes) : IsText bytes := by
  have digits {bytes : Bytes} (h : IsDigits bytes) : IsText bytes := .of_plain (.of_digits h.2)
  have whole {bytes : Bytes} (h : Digits.isCanonical bytes = true) : IsText bytes :=
    .of_plain (.of_digits (Digits.isCanonical_iff.1 h).2.1)
  have sign (negative : Bool) : IsText (if negative then [minus] else []) := by
    split
    · exact .byte (by decide)
    · exact .nil
  cases h with
  | whole negative => exact sign negative
  | fraction negative hw => exact ((sign negative).append (whole hw)).append (.byte (by decide))
  | @exponent _ fraction letter exponentSign negative hw hf hl hs _ =>
    refine ((sign negative).append (whole hw)).append (.append ?_ (.cons ?_ ?_))
    · cases fraction with
      | none => exact .nil
      | some f => exact .cons (by decide) (digits (hf f rfl))
    · rcases hl with rfl | rfl <;> decide
    · rcases hs with rfl | rfl | rfl
      · exact .nil
      · exact .byte (by decide)
      · exact .byte (by decide)

theorem exists_foundAt_of_number {first : Bool} (hc : ∀ b ∈ c.peek, b.toNat < 0x80)
    (h : NumberLiteral.read.FailsWith c f) :
    ∃ ahead m, c.Passes ahead m ∧ FoundAt (.value first) ahead m f := by
  rcases NumberLiteral.read_failsWith_iff.1 h with h | ⟨_, _, -, -, -, rfl⟩
  · obtain ⟨front', front, m, hd, hp, -, rfl⟩ := NumberLiteral.parts_eq_error_iff.1 h
    rw [noDigit]
    split
    · next hend =>
      refine ⟨front, m, hp, .of_ascii (isText_digitDue hd) rfl fun b hb => ?_⟩
      rw [Cursor.peek, List.isEmpty_iff.1 hend] at hb
      cases hb
    · cases front' with
      | true => exact ⟨[], c, Cursor.passes_nil.2 rfl, .of_ascii .nil rfl hc⟩
      | false => exact ⟨front, m, hp, isText_digitDue hd, rfl, fun _ _ _ => .digit rfl hd⟩
  · exact ⟨[], c, Cursor.passes_nil.2 rfl, .of_ascii .nil rfl hc⟩

theorem lt_of_mem_words {text : Bytes} (ht : text ∈ words) : ∀ b ∈ text, b.toNat < 0x80 := by
  simp only [words, List.mem_cons, List.not_mem_nil, or_false] at ht
  have lt {text : Bytes} (h : (text.all fun b => decide (b.toNat < 0x80)) = true) :
      ∀ b ∈ text, b.toNat < 0x80 := fun b hb => of_decide_eq_true (List.all_eq_true.1 h b hb)
  rcases ht with rfl | rfl | rfl <;> exact lt (by decide)

theorem exists_foundAt_of_word {text : Bytes} (ht : text ∈ words) (hb : c.peek = text.head?)
    (h : (Document.word text v).FailsWith c f) :
    ∃ ahead m, c.Passes ahead m ∧ FoundAt site ahead m f := by
  have hascii := lt_of_mem_words ht
  rcases word_failsWith_iff.1 h with ⟨⟨more, -, rfl⟩, rfl⟩ | ⟨-, -, rfl⟩
  · refine ⟨c.rest, ⟨c.pos + c.rest.length, []⟩, ⟨(List.append_nil _).symm, rfl⟩, ?_⟩
    exact .of_ascii (.of_ascii fun b hb => hascii b (List.mem_append_left _ hb)) rfl
      fun b hb => absurd hb (Option.not_mem_none b)
  · refine ⟨[], c, Cursor.passes_nil.2 rfl, .of_ascii .nil rfl fun b hx => hascii b ?_⟩
    rw [hb] at hx
    exact List.mem_of_head? hx

/-- **What is wrong at a site is found behind whole characters**, and if a byte beyond ASCII is at
fault, it is said so. -/
theorem Faulty.exists_foundAt (h : Faulty site levels c f) :
    ∃ ahead m, c.Passes ahead m ∧ FoundAt site ahead m f := by
  have here : c.Passes [] c := Cursor.passes_nil.2 rfl
  cases h with
  | value | itemEnd | key | colon | memberEnd =>
    exact ⟨[], c, here, foundAt_unexpected (by simp [expectations])⟩
  | bracket h =>
    refine ⟨[], c, here, .of_ascii .nil rfl fun b hb => ?_⟩
    rcases h with h | h <;>
      · obtain rfl := Option.some.inj (h.symm.trans hb)
        decide
  | text hq h | keyText hq h => exact exists_foundAt_of_text hq h
  | number hb hn h =>
    refine exists_foundAt_of_number (fun x hx => ?_) h
    obtain rfl := Option.some.inj (hb.symm.trans hx)
    rcases hn with rfl | hn
    · decide
    · exact toNat_lt_of_isPlainByte (PlainBytes.isPlainByte_of_isDigit hn)
  | word ht hb h => exact exists_foundAt_of_word ht hb h
  | documentEnd => exact ⟨[], c, here, .nil, rfl, fun _ _ _ => .documentEnd rfl rfl⟩

/-- **In front of the place where reading fails there are whole characters.** -/
theorem isText_take_of_read_eq_error {bounds : Bounds} {input : Bytes}
    (h : read bounds input = .error f) :
    f.position ≤ input.length ∧ IsText (input.take f.position) := by
  rcases (read_eq_error_iff _ _ _).1 h with ⟨-, rfl⟩ | ⟨-, -, rfl⟩ | ⟨-, -, hbreaks⟩
  · exact ⟨Nat.zero_le _, .nil⟩
  · exact ⟨Nat.zero_le _, .nil⟩
  · obtain ⟨bytes, levels, site, c, hbegun, hp, -, hf⟩ := hbreaks
    obtain ⟨ahead, m, hpm, hfound⟩ := hf.exists_foundAt
    have hpass := hp.trans hpm
    have hinput : input = bytes ++ ahead ++ m.rest := hpass.1
    have hpos : f.position = (bytes ++ ahead).length := hfound.position_eq.trans hpass.pos_eq
    rw [hpos, hinput, List.take_left]
    refine ⟨?_, hbegun.isText.append hfound.isText⟩
    rw [@List.length_append _ (bytes ++ ahead)]
    exact Nat.le_add_right _ _

end JsonCodec.Document
