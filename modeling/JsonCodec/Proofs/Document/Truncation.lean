/-
Fronts of documents: what is said of a document that ends too early (`decodeWithin_front`).

A front is read itself if all that it lacks is blanks or the rest of a number. Otherwise its end is
what is wrong with it, and how that is said depends on the token in which it ends (`Cut`): at a site
where something is wrong in the front, and not in the document, the front ends.
-/
import JsonCodec.Proofs.Document.CutLiterals
import JsonCodec.Proofs.Document.Unfinished

namespace JsonCodec

open Ascii Grammar

def Value.isNumber : Value → Bool
  | .int _ | .bigInt _ | .float _ => true
  | _ => false

namespace Document

open NumberLiteral

/-- A front of a document, of any depth, leads to a site. -/
def LeadsTo (next : Option UInt8) (front : Bytes) (site : Site) : Prop :=
  ∃ n levels, Begun next .document n front levels site

/-- Where a text may stand: as a value or as a key. -/
def Site.isText : Site → Bool
  | .value _ | .key _ => true
  | _ => false

/-- The text behind `front` in the document `p ++ t` is cut: `p` has the characters `done` of it and
the bytes `tail` of the next, and `t` has the rest, of this `more`. -/
structure EndsInText (p t front done tail more : Bytes) : Prop where
  due : ∃ site, LeadsTo (some quote) front site ∧ site.isText = true
  front_eq : p = front ++ quote :: (done ++ tail)
  done_ok : ∃ chars, Chars done chars
  rest_eq : ∃ rest chars after, Chars rest chars ∧ t = more ++ (rest ++ quote :: after)

/-- The number behind `front` in the document `p ++ t`, the whole `literal`, is cut: `p` has `part` of
it, and `t` has the rest, `more`. -/
structure EndsInNumber (p t front : Bytes) (part : Number) (more : Bytes) (literal : Number) :
    Prop where
  due : ∃ first, LeadsTo part.bytes.head? front (.value first)
  front_eq : p = front ++ part.bytes
  rest_eq : ∃ after, t = more ++ after ∧ ∀ b ∈ after.head?, (ofGrammar literal).goesOn b = false

/-- What is wrong with the document `p ++ t` if it ends as `p`. -/
inductive Cut (p t : Bytes) : Fault → Prop
  | empty (h : p = []) : Cut p t ⟨.emptyDocument, 0⟩
  | ended (h : p ≠ []) : Cut p t ⟨.unexpectedEnd, p.length⟩
  | text {front done tail more : Bytes} {f : Fault} (h : EndsInText p t front done tail more)
    (hf : StringLiteral.Cut front.length (front.length + 1 + done.length) tail more f) : Cut p t f
  | number {front more : Bytes} {part literal : Number}
    (h : EndsInNumber p t front part more literal) (hf : NumberLiteral.Cut part more literal) :
    Cut p t ⟨.numberOutOfRange, front.length⟩

/-- What can be wrong with a document that ends too early. -/
def cutReasons : List Reason :=
  [.emptyDocument, .unexpectedEnd, .unterminatedString, .invalidEscape, .unpairedSurrogate,
    .invalidUtf8, .numberOutOfRange]

variable {bounds : Bounds} {p t front : Bytes} {c m : Cursor} {f : Fault} {n levels : Nat}
  {site : Site} {v w : Value}

theorem Cut.reason_mem (h : Cut p t f) : f.reason ∈ cutReasons := by
  cases h with
  | empty | ended | number => simp [cutReasons]
  | text _ hf =>
    cases hf with
    | between | backslash | encoding => simp [cutReasons]
    | escape _ _ hc => cases hc <;> simp [cutReasons]

/-! ## Sites -/

theorem unexpected_of_end (h : c.rest = []) (reason : Reason) :
    c.unexpected reason = ⟨.unexpectedEnd, c.pos⟩ := by rw [Cursor.unexpected, h]

/-- Where the document ends, that is what is wrong at any site. -/
theorem Faulty.of_end (h : Faulty site levels c f) (hc : c.rest = []) :
    f = ⟨.unexpectedEnd, c.pos⟩ := by
  have hpeek : c.peek = none := by rw [Cursor.peek, hc]; rfl
  cases h with
  | value | itemEnd | key | colon | memberEnd => exact unexpected_of_end hc _
  | bracket h => rcases h with h | h <;> rw [hpeek] at h <;> cases h
  | text hq | keyText hq => rw [hpeek] at hq; cases hq
  | number hb => rw [hpeek] at hb; cases hb
  | word ht hb =>
    rw [hpeek] at hb
    simp only [words, List.mem_cons, List.not_mem_nil, or_false] at ht
    rcases ht with rfl | rfl | rfl <;> cases hb
  | documentEnd h => exact absurd hc h

theorem cut_of_text (hl : LeadsTo c.peek front site) (hsite : site.isText = true)
    (hp : (Cursor.ofBytes p).Passes front c) (hq : c.peek = some quote)
    (h : StringLiteral.read.FailsWith c f)
    (hok : ∀ g, ¬StringLiteral.read.FailsWith (c.extend t) g) : Cut p t f := by
  obtain ⟨name, m, hread⟩ := ReadM.exists_ok_of_not_failsWith hok
  obtain ⟨done, tail, more, rest, hdone, ⟨chars, hrest⟩, hc, ht, hcut⟩ :=
    StringLiteral.read_of_extend hq h hread
  have hpos : c.pos = front.length := hp.pos_eq
  rw [hpos] at hcut
  have hfront : p = front ++ quote :: (done ++ tail) := hc ▸ hp.1
  exact .text ⟨⟨site, hq ▸ hl, hsite⟩, hfront, hdone, rest, chars, m.rest, hrest, ht⟩ hcut

theorem length_of_passes (hp : (Cursor.ofBytes p).Passes front c) :
    c.pos + c.rest.length = p.length := by rw [hp.pos_eq, ← hp.length, Cursor.ofBytes]

theorem cut_of_number {first : Bool} (hl : LeadsTo c.peek front (.value first))
    (hp : (Cursor.ofBytes p).Passes front c) (hne : p ≠ []) (h : NumberLiteral.read.FailsWith c f)
    (hok : ∀ g, ¬NumberLiteral.read.FailsWith (c.extend t) g) : Cut p t f := by
  obtain ⟨v, m, hread⟩ := ReadM.exists_ok_of_not_failsWith hok
  rcases NumberLiteral.read_of_extend h hread with
    rfl | ⟨rfl, part, more, literal, hcut, hc, ht, hs⟩
  · rw [length_of_passes hp]
    exact .ended hne
  · have hpos : c.pos = front.length := hp.pos_eq
    have hpeek : c.peek = part.bytes.head? := by rw [Cursor.peek, hc]
    rw [hpos]
    exact .number ⟨⟨first, hpeek ▸ hl⟩, hc ▸ hp.1, m.rest, ht, hs⟩ hcut

/-- What is wrong at a site, and is not with more bytes at the end, is that the document is cut. -/
theorem Faulty.cut (h : Faulty site levels c f) (hl : LeadsTo c.peek front site)
    (hp : (Cursor.ofBytes p).Passes front c) (hc : c.rest ≠ [])
    (hok : ∀ g, ¬Faulty site levels (c.extend t) g) : Cut p t f := by
  have hpeek : (c.extend t).peek = c.peek := Cursor.peek_extend hc
  have hne : p ≠ [] := by
    have hlen := length_of_passes hp
    have hpos := List.length_pos_iff.2 hc
    exact List.ne_nil_of_length_pos (by omega)
  cases h with
  | value hb hf => exact absurd (.value (hpeek ▸ hb) (hpeek ▸ hf)) (hok _)
  | bracket hb => exact absurd (.bracket (hpeek ▸ hb)) (hok _)
  | text hq h => exact cut_of_text hl rfl hp hq h fun g hg => hok g (.text (hpeek ▸ hq) hg)
  | number hb hn h => exact cut_of_number hl hp hne h fun g hg => hok g (.number (hpeek ▸ hb) hn hg)
  | word ht hb h =>
    rw [word_of_extend h fun g hg => hok g (.word ht (hpeek ▸ hb) hg), length_of_passes hp]
    exact .ended hne
  | itemEnd hcomma hb => exact absurd (.itemEnd (hpeek ▸ hcomma) (hpeek ▸ hb)) (hok _)
  | key hq hf => exact absurd (.key (hpeek ▸ hq) (hpeek ▸ hf)) (hok _)
  | keyText hq h => exact cut_of_text hl rfl hp hq h fun g hg => hok g (.keyText (hpeek ▸ hq) hg)
  | colon h => exact absurd (.colon (hpeek ▸ h)) (hok _)
  | memberEnd hcomma hb => exact absurd (.memberEnd (hpeek ▸ hcomma) (hpeek ▸ hb)) (hok _)
  | documentEnd h => exact absurd (.documentEnd (List.append_ne_nil_of_left_ne_nil h t)) (hok _)

/-- What goes wrong in a front of a document where nothing goes wrong. -/
theorem Breaks.cut (h : Breaks .document n (Cursor.ofBytes p) f) (hne : p ≠ [])
    (hok : ∀ g, ¬Breaks .document n (Cursor.ofBytes (p ++ t)) g) : Cut p t f := by
  obtain ⟨front, levels, site, c, hbegun, hp, hs, hf⟩ := h
  by_cases hc : c.rest = []
  · have hlen := length_of_passes hp
    rw [hc, List.length_nil, Nat.add_zero] at hlen
    rw [hf.of_end hc, hlen]
    exact .ended hne
  · refine hf.cut ⟨n, levels, hbegun⟩ hp hc fun g hg => hok g ?_
    refine ⟨front, levels, site, c.extend t, ?_, hp.extend, hs.extend hc, hg⟩
    rwa [Cursor.peek_extend hc]

/-! ## Fronts that are read -/

variable {before bytes : Bytes}

theorem peek_of_denotes (hb : Blanks before) (hv : Denotes exponentSize n bytes v) (rest : Bytes) :
    (Cursor.ofBytes (before ++ bytes ++ rest)).skipBlanks.peek = bytes.head? := by
  obtain ⟨b, hhead, hvalue⟩ := isValueByte_of_denotes hv
  let c : Cursor := ⟨before.length, bytes ++ rest⟩
  have hp : (Cursor.ofBytes (before ++ bytes ++ rest)).Passes before c :=
    ⟨List.append_assoc _ _ _, (Nat.zero_add _).symm⟩
  have hpeek : c.peek = some b := by
    rw [Cursor.peek, List.head?_append, hhead]
    rfl
  rw [skipBlanks_of_passes hp hb hpeek (isBlank_of_isValueByte hvalue), hpeek, hhead]

/-- The first byte tells whether a value is a number. -/
theorem isNumber_of_denotes {b : UInt8} (h : Denotes exponentSize n bytes v)
    (hb : bytes.head? = some b) (hn : b = minus ∨ isDigit b = true) : v.isNumber = true := by
  cases h with
  | number literal h => cases h <;> rfl
  | text h =>
    obtain ⟨hchars⟩ := h
    cases hb
    rcases hn with hn | hn <;> cases hn
  | null | true | false | emptyArray | array | emptyObject | object =>
    cases hb
    rcases hn with hn | hn <;> cases hn

/-- Behind a value and blanks comes what is none, and goes on with no number. -/
theorem breaks_of_not_blanks (hw : Denotes exponentSize n bytes w) (hb : Blanks before)
    {after : Bytes} (ha : Blanks after) (he : Ends bytes (after ++ t).head?) (ht : ¬Blanks t) :
    ∃ g, Breaks .document n (Cursor.ofBytes (before ++ bytes ++ after ++ t)) g := by
  let c : Cursor := ⟨(before ++ bytes ++ after).length, t⟩
  obtain ⟨blanks, hp, hblanks, hs⟩ := skipBlanks_eq_iff.1 (rfl : c.skipBlanks = c.skipBlanks)
  have hrest : t = blanks ++ c.skipBlanks.rest := hp.1
  have hne : c.skipBlanks.rest ≠ [] := by
    intro hnil
    rw [hnil, List.append_nil] at hrest
    exact ht (hrest ▸ hblanks)
  have hbehind : Blanks (after ++ blanks) := List.forall_mem_append.2 ⟨ha, hblanks⟩
  rw [hrest, ← List.append_assoc, List.head?_append] at he
  refine ⟨_, _, n, .documentEnd, c.skipBlanks, .documentEnd (.mk hb hw hbehind he), ?_, hs,
    .documentEnd hne⟩
  rw [← List.append_assoc]
  exact Cursor.Passes.trans ⟨rfl, (Nat.zero_add _).symm⟩ hp

theorem spaced_append_blanks (h : Spaced exponentSize n bytes v) (ht : Blanks t) :
    Spaced exponentSize n (bytes ++ t) v := by
  obtain ⟨hb, hv, ha⟩ := h
  rw [List.append_assoc]
  exact .mk hb hv (List.forall_mem_append.2 ⟨ha, ht⟩)

/-- A front of a document that is one itself lacks blanks, or both are numbers. -/
theorem eq_or_isNumber_of_read (hw : read bounds p = .ok w) (hv : read bounds (p ++ t) = .ok v) :
    Blanks t ∧ w = v ∨ w.isNumber = true ∧ v.isNumber = true := by
  obtain ⟨-, -, hfront⟩ := (read_eq_ok_iff _ _).1 hw
  obtain ⟨hne, hsize, hwhole⟩ := (read_eq_ok_iff _ _).1 hv
  by_cases ht : Blanks t
  · have hsame := (read_eq_ok_iff _ _).2 ⟨hne, hsize, spaced_append_blanks hfront ht⟩
    rw [hv] at hsame
    exact .inl ⟨ht, (Except.ok.inj hsame).symm⟩
  obtain @⟨_, before, bytes, after, _, hb, hbytes, ha⟩ := hfront
  have hnot : ¬Ends bytes (after ++ t).head? := by
    intro he
    obtain ⟨g, hg⟩ := breaks_of_not_blanks hbytes hb ha he ht
    exact not_breaks_of_read_eq_ok hv hg
  -- So a number goes on behind the front, and the document begins as the front does.
  simp only [Ends, not_forall] at hnot
  obtain ⟨literal, rfl, -⟩ := hnot
  obtain ⟨b, hhead, hnumber⟩ := isDigit_or_of_number literal
  refine .inr ⟨isNumber_of_denotes hbytes hhead hnumber, ?_⟩
  have hpeek := peek_of_denotes hb hbytes (after ++ t)
  rw [← List.append_assoc] at hpeek
  generalize before ++ literal.bytes ++ after ++ t = input at hwhole hpeek
  obtain ⟨hb', hbytes', -⟩ := hwhole
  rw [peek_of_denotes hb' hbytes', hhead] at hpeek
  exact isNumber_of_denotes hbytes' hpeek hnumber

/-- **Fronts of documents.** A front of a document that is read is read itself, and then blanks are
all that it lacks, or both are numbers; or it is refused as a document that ends too early. -/
theorem decodeWithin_front (bounds : Bounds) (p t : Bytes) {v : Value}
    (h : decodeWithin bounds (p ++ t) = .ok v) :
    (∃ w, decodeWithin bounds p = .ok w ∧
      (Blanks t ∧ w = v ∨ w.isNumber = true ∧ v.isNumber = true)) ∨
    ∃ fault, decodeWithin bounds p = .error (fault.inDocument p) ∧ Cut p t fault ∧
      fault.reason ∈ cutReasons := by
  have hread := (decodeWithin_eq_ok_iff _ _).1 h
  obtain ⟨-, hsize, -⟩ := (read_eq_ok_iff _ _).1 hread
  have hle : p.length ≤ (p ++ t).length := by simp
  cases hp : read bounds p with
  | ok w => exact .inl ⟨w, (decodeWithin_eq_ok_iff _ _).2 hp, eq_or_isNumber_of_read hp hread⟩
  | error fault =>
    have hcut : Cut p t fault := by
      rcases (read_eq_error_iff _ _ _).1 hp with ⟨rfl, rfl⟩ | ⟨hlt, -⟩ | ⟨-, hpne, hbreaks⟩
      · exact .empty rfl
      · omega
      · exact hbreaks.cut hpne fun g => not_breaks_of_read_eq_ok hread
    exact .inr ⟨fault, decodeWithin_eq_error_of_read hp, hcut, hcut.reason_mem⟩

/-- A pair of escapes, and a front of the document that ends in the second. -/
theorem decodeWithin_front_surrogates :
    let p := Utf8.encode "[\"\\ud83d\\ude"
    let t := Utf8.encode "00\"]"
    decodeWithin ⟨1, 64⟩ (p ++ t) = .ok (.array [.str "😀"]) ∧
      ∃ fault, decodeWithin ⟨1, 64⟩ p = .error (fault.inDocument p) ∧ Cut p t fault := by
  intro p t
  have hhigh : CodeUnit [0x64, 0x38, 0x33, 0x64] (((13 * 16 + 8) * 16 + 3) * 16 + 13) :=
    .mk rfl rfl rfl rfl
  have hlow : CodeUnit [0x64, 0x65, 0x30, 0x30] (((13 * 16 + 14) * 16 + 0) * 16 + 0) :=
    .mk rfl rfl rfl rfl
  have hpair := Escaped.pair hhigh (by decide) hlow (by decide)
  have hv : Spaced exponentSize 1 (p ++ t) (.array [.str "😀"]) :=
    .of_denotes (.array (.one (.of_denotes (.text (.mk (.escape hpair .nil))))))
  have hok : decodeWithin ⟨1, 64⟩ (p ++ t) = .ok (.array [.str "😀"]) :=
    (decodeWithin_eq_ok_iff _ _).2 ((read_eq_ok_iff _ _).2 ⟨by decide, by decide, hv⟩)
  refine ⟨hok, ?_⟩
  rcases decodeWithin_front _ p t hok with
    ⟨w, -, ⟨hblanks, -⟩ | ⟨-, hnumber⟩⟩ | ⟨fault, herror, hcut, -⟩
  · exact absurd (hblanks quote (by decide)) (by decide)
  · cases hnumber
  · exact ⟨fault, herror, hcut⟩

end Document

end JsonCodec
