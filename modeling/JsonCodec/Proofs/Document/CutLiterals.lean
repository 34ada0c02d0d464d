/-
Literals that are read to the end, and are not if the document ends inside them.

A reader looks no further than a byte behind what it takes. So if more bytes at the end make a
literal one that is read (`Cursor.extend`), the end was in it: in a word, where a digit had to come
next, behind digits whose value is out of range as long as that is all of them, or in one of the
characters of a text.
-/
import JsonCodec.Proofs.Document.Faults

namespace JsonCodec

open Ascii Grammar

/-- Bytes that do not begin with a literal, and do with more at the end, end inside it. -/
theorem exists_of_append_eq {front t literal rest : Bytes} (h : front ++ t = literal ++ rest)
    (hno : ∀ after, front ≠ literal ++ after) :
    ∃ more, more ≠ [] ∧ literal = front ++ more ∧ t = more ++ rest := by
  rcases List.append_eq_append_iff.1 h with ⟨more, hl, ht⟩ | ⟨after, hf, -⟩
  · refine ⟨more, ?_, hl, ht⟩
    rintro rfl
    exact hno [] (by rw [hl, List.append_nil, List.append_nil])
  · exact absurd hf (hno after)

namespace Cursor

/-- The same place, with more bytes at the end of the document. -/
def extend (c : Cursor) (more : Bytes) : Cursor := ⟨c.pos, c.rest ++ more⟩

variable {c c' : Cursor} {b more : Bytes}

theorem peek_extend (h : c.rest ≠ []) : (c.extend more).peek = c.peek := by
  rw [Cursor.peek, Cursor.peek, extend, List.head?_append_of_ne_nil _ h]

theorem atEnd_extend (h : c.rest ≠ []) : (c.extend more).atEnd = c.atEnd := by
  obtain ⟨b, rest, hrest⟩ := List.exists_cons_of_ne_nil h
  rw [atEnd, atEnd, extend, hrest]
  rfl

theorem Passes.extend (h : c.Passes b c') : (c.extend more).Passes b (c'.extend more) :=
  ⟨by rw [Cursor.extend, Cursor.extend, h.1, List.append_assoc], h.2⟩

theorem Stops.extend {p : UInt8 → Bool} (h : c.Stops p) (hne : c.rest ≠ []) :
    (c.extend more).Stops p := by
  rw [Stops, peek_extend hne]
  exact h

end Cursor

variable {c : Cursor} {f : Fault} {t : Bytes}

/-! ## Words -/

/-- A document that ends in a word is cut short. -/
theorem Document.word_of_extend {text : Bytes} {v : Value}
    (h : (Document.word text v).FailsWith c f)
    (hok : ∀ g, ¬(Document.word text v).FailsWith (c.extend t) g) :
    f = ⟨.unexpectedEnd, c.pos + c.rest.length⟩ := by
  rcases word_failsWith_iff.1 h with ⟨-, hf⟩ | ⟨htext, hrest, -⟩
  · exact hf
  · refine absurd (word_failsWith_iff.2 (.inr ⟨fun more heq => ?_, fun more heq => ?_, rfl⟩)) (hok _)
    · exact htext (t ++ more) (by rw [heq, Cursor.extend, List.append_assoc])
    · obtain ⟨more, -, htext', -⟩ := exists_of_append_eq heq hrest
      exact htext more htext'

/-! ## Numbers -/

namespace NumberLiteral

/-- A literal with more bytes is no integer if it is none without them. -/
theorem isInteger_of_append {n m : Number} {more : Bytes} (h : m.bytes = n.bytes ++ more)
    (hm : m.isInteger = true) : n.isInteger = true := by
  have hall : ∀ b ∈ m.bytes, isDigit b = true ∨ b = minus := by
    simp only [Number.isInteger, Bool.and_eq_true, Option.isNone_iff_eq_none] at hm
    intro b hb
    simp only [Number.bytes, hm.1, hm.2, Option.map_none, Option.getD_none, List.append_nil,
      List.mem_append] at hb
    rcases hb with hb | hb
    · split at hb
      · exact .inr (List.mem_singleton.1 hb)
      · cases hb
    · exact .inl ((Digits.isCanonical_iff.1 m.whole_ok).2.1 b hb)
  have hmem (b : UInt8) (hb : b ∈ n.bytes) : isDigit b = true ∨ b = minus :=
    hall b (h ▸ List.mem_append_left more hb)
  rw [Number.isInteger, Bool.and_eq_true, Option.isNone_iff_eq_none, Option.isNone_iff_eq_none]
  constructor
  · refine Option.eq_none_iff_forall_not_mem.2 fun digits hf => ?_
    rw [Option.mem_def] at hf
    have hpoint := hmem point (by simp [Number.bytes, hf])
    rcases hpoint with h | h <;> cases h
  · refine Option.eq_none_iff_forall_not_mem.2 fun e he => ?_
    rw [Option.mem_def] at he
    have hletter := hmem e.letter (by simp [Number.bytes, he, Exponent.bytes])
    rcases e.letter_mem with hl | hl <;> rw [hl] at hletter <;> rcases hletter with h | h <;> cases h

theorem parts_failsWith_extend (h : parts c = .error f) (hok : parts (c.extend t) ≠ .error f) :
    f = ⟨.unexpectedEnd, c.pos + c.rest.length⟩ := by
  obtain ⟨first, front, m, hdue, hp, hs, rfl⟩ := parts_eq_error_iff.1 h
  by_cases hm : m.rest = []
  · have hlen := hp.length
    rw [hm, List.length_nil, Nat.add_zero] at hlen
    rw [noDigit, Cursor.atEnd, hm, hlen, ← hp.2]
    rfl
  · refine absurd (parts_eq_error_iff.2 ?_) hok
    refine ⟨first, front, m.extend t, ?_, hp.extend, hs.extend hm, ?_⟩
    · rwa [Cursor.peek_extend hm]
    · rw [noDigit, noDigit, Cursor.atEnd_extend hm]
      rfl

/-- A literal of which there is only a part, and not `more`: the part is a literal too, but one that
is out of range. -/
structure Cut (part : Number) (more : Bytes) (literal : Number) : Prop where
  bytes_eq : literal.bytes = part.bytes ++ more
  more_ne : more ≠ []
  isInteger_part : part.isInteger = false
  isInteger_literal : literal.isInteger = false
  not_denotes : ∀ v, ¬part.Denotes exponentSize v

/-- A document that ends in a number is cut short, or has a number there that is out of range as
long as it is no longer. -/
theorem read_of_extend {v : Value} {m : Cursor} (h : read.FailsWith c f)
    (hok : read (c.extend t) = .ok v m) :
    f = ⟨.unexpectedEnd, c.pos + c.rest.length⟩ ∨ f = ⟨.numberOutOfRange, c.pos⟩ ∧
      ∃ part more literal, Cut part more literal ∧ c.rest = part.bytes ∧ t = more ++ m.rest ∧
        m.Stops (ofGrammar literal).goesOn := by
  have hnot (g : Fault) : ¬read.FailsWith (c.extend t) g := ReadM.not_failsWith_of_ok hok
  rcases read_failsWith_iff.1 h with h | ⟨n, m₁, hp, hs, hv, rfl⟩
  · exact .inl (parts_failsWith_extend h fun h' => hnot f (read_failsWith_iff.2 (.inl h')))
  · obtain ⟨literal, hp', hv', hs'⟩ := read_eq_ok_iff.1 hok
    have hend : m₁.rest = [] := by
      refine Decidable.byContradiction fun hne => ?_
      exact hnot _ (read_failsWith_iff.2 (.inr ⟨n, _, hp.extend, hs.extend hne, hv, rfl⟩))
    have hrest : c.rest = n.bytes := by rw [hp.1, hend, List.append_nil]
    have heq : n.bytes ++ t = literal.bytes ++ m.rest := by
      rw [← hrest]
      exact hp'.1
    have hshort (after : Bytes) : n.bytes ≠ literal.bytes ++ after := by
      intro hn
      -- Both literals would be read at `c`, and only one of them has a value.
      rw [hn, List.append_assoc, List.append_cancel_left_eq] at heq
      have hs₂ : Cursor.Stops (ofGrammar literal).goesOn ⟨m.pos, after⟩ := fun b hb =>
        hs' b (by rw [Cursor.peek, ← heq]; exact List.mem_head?_append_of_mem_head? hb)
      have hp₂ : c.Passes literal.bytes ⟨m.pos, after⟩ := ⟨hrest.trans hn, hp'.2⟩
      have hparts := parts_of_passes hp₂ hs₂
      rw [parts_of_passes hp hs] at hparts
      rw [(Prod.mk.inj (Except.ok.inj hparts)).1, value?_ofGrammar_eq_some_iff.2 hv'] at hv
      cases hv
    obtain ⟨more, hne, hl, ht⟩ := exists_of_append_eq heq hshort
    have hint : n.isInteger = false := by
      refine Bool.eq_false_iff.2 fun hi => ?_
      rw [value?_ofGrammar_of_isInteger hi] at hv
      cases hv
    refine .inr ⟨rfl, n, more, literal, ⟨hl, hne, hint, ?_, fun v hd => ?_⟩, hrest, ht, hs'⟩
    · refine Bool.eq_false_iff.2 fun hi => ?_
      rw [isInteger_of_append hl hi] at hint
      cases hint
    · rw [value?_ofGrammar_eq_some_iff.2 hd] at hv
      cases hv

end NumberLiteral

/-! ## Texts -/

namespace Escape

/-- What there is of a cut escape behind the backslash, and what is said to be wrong: four digits are
due behind a `u`, and behind those of a high surrogate a `u` escape with another four. -/
inductive Cut : Bytes → Reason → (place : Nat) → Prop
  | unit {digits : Bytes} (h : digits.length < 4) : Cut (letterU :: digits) .invalidEscape 0
  | surrogate {high part : Bytes} {m : Nat} (hh : CodeUnit high m) (hm : 0xD800 ≤ m ∧ m ≤ 0xDBFF)
    (hp : part = [] ∨ part = [backslash]) : Cut (letterU :: (high ++ part)) .unpairedSurrogate 0
  | low {high low : Bytes} {m : Nat} (hh : CodeUnit high m) (hm : 0xD800 ≤ m ∧ m ≤ 0xDBFF)
    (hl : low.length < 4) :
    Cut (letterU :: (high ++ backslash :: letterU :: low)) .invalidEscape 6

theorem unit?_of_length_lt {digits : Bytes} (h : digits.length < 4) : unit? digits = none := by
  cases hu : unit? digits with
  | none => rfl
  | some n =>
    obtain ⟨four, rest, rfl, hc⟩ := unit?_eq_some_iff.1 hu
    rw [List.length_append, length_of_codeUnit hc] at h
    omega

theorem read_of_unit {digits : Bytes} (h : digits.length < 4) :
    read (letterU :: digits) = .bad .invalidEscape 0 2 := by
  rw [read, if_pos rfl, readUnit, unit?_of_length_lt h]

theorem read_of_high {high part : Bytes} {m : Nat} (hh : CodeUnit high m)
    (hm : 0xD800 ≤ m ∧ m ≤ 0xDBFF) : read (letterU :: (high ++ part)) = readLow m part := by
  rw [read, if_pos rfl, readUnit, unit?_eq_some_iff.2 ⟨high, part, rfl, hh⟩]
  simp only [if_pos (isHighSurrogate_iff.2 hm), List.drop_left' (length_of_codeUnit hh)]

theorem length_lt_of_append {digits part more : Bytes} {n : Nat} (h : CodeUnit digits n)
    (hd : digits = part ++ more) (hne : more ≠ []) : part.length < 4 := by
  have hlen := length_of_codeUnit h
  have hpos := List.length_pos_iff.2 hne
  rw [hd, List.length_append] at hlen
  omega

/-- Behind a high surrogate the escape of the low one is cut. -/
theorem cut_of_readLow {high low part more : Bytes} {m n place stop : Nat} {reason : Reason}
    (hh : CodeUnit high m) (hm : 0xD800 ≤ m ∧ m ≤ 0xDBFF) (hl : CodeUnit low n)
    (heq : part ++ more = backslash :: letterU :: low) (hne : more ≠ [])
    (h : readLow m part = .bad reason place stop) : Cut (letterU :: (high ++ part)) reason place := by
  match part, heq with
  | [], _ =>
    cases h
    exact .surrogate hh hm (.inl rfl)
  | [_], hmark =>
    obtain ⟨rfl, -⟩ := List.cons.inj hmark
    cases h
    exact .surrogate hh hm (.inr rfl)
  | _ :: _ :: digits, hmark =>
    obtain ⟨rfl, hletter⟩ := List.cons.inj hmark
    obtain ⟨rfl, hlow⟩ := List.cons.inj hletter
    have hlen := length_lt_of_append hl hlow.symm hne
    have hprefix : [backslash, letterU].isPrefixOf (backslash :: letterU :: digits) = true :=
      List.isPrefixOf_iff_prefix.2 ⟨digits, rfl⟩
    rw [readLow, if_pos hprefix, List.drop_succ_cons, List.drop_succ_cons, List.drop_zero,
      unit?_of_length_lt hlen] at h
    cases h
    exact .low hh hm hlen

/-- The front of an escape that is found to be cut is one of these. -/
theorem cut_of_read {after more : Bytes} {c : Char} {reason : Reason} {place stop : Nat}
    (hs : Escaped (after ++ more) c) (hne : more ≠ []) (h : read after = .bad reason place stop) :
    Cut after reason place := by
  cases after with
  | nil => cases h
  | cons letter part =>
  have cut_unit (hlen : part.length < 4) (hu : letter = letterU) :
      Cut (letter :: part) reason place := by
    rw [hu, read_of_unit hlen] at h
    cases h
    exact hu ▸ .unit hlen
  generalize heq : letter :: part ++ more = sequence at hs
  cases hs with
  | short => exact absurd (List.append_eq_nil_iff.1 (List.cons.inj heq).2).2 hne
  | unit hd =>
    obtain ⟨hu, hdigits⟩ := List.cons.inj heq
    exact cut_unit (length_lt_of_append hd hdigits.symm hne) hu
  | @pair high low m _ hh hm hl =>
    obtain ⟨hu, htail⟩ := List.cons.inj heq
    by_cases hhigh : ∃ behind, part = high ++ behind
    · obtain ⟨behind, rfl⟩ := hhigh
      rw [hu, read_of_high hh hm] at h
      rw [List.append_eq, List.append_assoc, List.append_cancel_left_eq] at htail
      exact hu ▸ cut_of_readLow hh hm hl htail hne h
    · obtain ⟨rest, hrest, hd, -⟩ := exists_of_append_eq htail (not_exists.1 hhigh)
      exact cut_unit (length_lt_of_append hh hd hrest) hu

/-- Nothing is left behind the backslash. -/
theorem eq_nil_of_read_eq_cut {after : Bytes} (h : read after = .cut) : after = [] := by
  match after, h with
  | [], _ => rfl
  | letter :: rest, h =>
    exfalso
    simp only [read, readUnit, readLow] at h
    repeat' split at h
    all_goals cases h

end Escape

namespace StringLiteral

/-- What is wrong with a literal, opened at `opened`, that has of the character at `pos` only `tail`,
and not `more`. Both are empty where it is cut between two characters. -/
inductive Cut (opened pos : Nat) : (tail more : Bytes) → Fault → Prop
  | between : Cut opened pos [] [] ⟨.unterminatedString, opened⟩
  | backslash {sequence : Bytes} {c : Char} (h : Escaped sequence c) :
    Cut opened pos [backslash] sequence ⟨.unterminatedString, opened⟩
  | escape {after more : Bytes} {c : Char} {reason : Reason} {place : Nat}
    (h : Escaped (after ++ more) c) (hne : more ≠ []) (hc : Escape.Cut after reason place) :
    Cut opened pos (Ascii.backslash :: after) more ⟨reason, pos + place⟩
  | encoding {tail more : Bytes} {c : Char} (h : IsPlain c)
    (hc : String.utf8EncodeChar c = tail ++ more) (ht : tail ≠ []) (hm : more ≠ []) :
    Cut opened pos tail more ⟨.invalidUtf8, pos⟩

/-- The first byte of what stands in front of a quote tells whether that is a character. -/
theorem exists_of_chars {inside bytes after : Bytes} {chars : List Char} {b : UInt8}
    (h : Chars inside chars) (heq : b :: bytes = inside ++ quote :: after) :
    b = quote ∨ (b = backslash ∧ ∃ sequence c rest chars, Escaped sequence c ∧ Chars rest chars ∧
        bytes = sequence ++ (rest ++ quote :: after)) ∨
      isRun b = true ∧ isControl b = false ∧ ∃ c rest chars, IsPlain c ∧ Chars rest chars ∧
        b :: bytes = String.utf8EncodeChar c ++ (rest ++ quote :: after) := by
  cases h with
  | nil => exact .inl (List.cons.inj heq).1
  | @plain c rest chars hp hc =>
    rw [List.append_assoc] at heq
    obtain ⟨x, tail, hx, -⟩ := Utf8.exists_sequence c
    have hb : b = x := by
      rw [hx] at heq
      exact (List.cons.inj heq).1
    obtain ⟨hr, hcontrol⟩ := isPlain_iff.1 hp b (by rw [hx, hb]; exact List.mem_cons_self)
    exact .inr (.inr ⟨hr, hcontrol, c, rest, chars, hp, hc, heq⟩)
  | @escape sequence rest c chars hs hc =>
    rw [List.cons_append, List.append_assoc] at heq
    obtain ⟨rfl, hbytes⟩ := List.cons.inj heq
    exact .inr (.inl ⟨rfl, sequence, c, rest, chars, hs, hc, hbytes⟩)

/-- What is wrong where a literal ends that has characters and a quote with more behind it. -/
theorem cut_of_broken {opened pos : Nat} {bytes inside after : Bytes} {chars : List Char}
    (h : Broken opened pos bytes f) (hc : Chars inside chars)
    (heq : bytes ++ t = inside ++ quote :: after) :
    ∃ more rest chars, Chars rest chars ∧ t = more ++ (rest ++ quote :: after) ∧
      Cut opened pos bytes more f := by
  cases h with
  | ended => exact ⟨[], inside, chars, hc, heq, .between⟩
  | @cut tail h =>
    obtain rfl := Escape.eq_nil_of_read_eq_cut h
    obtain hq | ⟨-, sequence, c, rest, chars, hs, hrest, ht⟩ | ⟨hr, -⟩ := exists_of_chars hc heq
    · cases hq
    · exact ⟨sequence, rest, chars, hrest, ht, .backslash hs⟩
    · cases hr
  | @escape tail reason place stop h =>
    obtain hq | ⟨-, sequence, c, rest, chars, hs, hrest, ht⟩ | ⟨hr, -⟩ := exists_of_chars hc heq
    · cases hq
    · have hno (x : Bytes) : tail ≠ sequence ++ x := by
        rintro rfl
        rw [Escape.read_eq_char_iff.2 ⟨sequence, x, rfl, hs, rfl⟩] at h
        cases h
      obtain ⟨more, hne, rfl, rfl⟩ := exists_of_append_eq ht hno
      exact ⟨more, rest, chars, hrest, rfl, .escape hs hne (Escape.cut_of_read hs hne h)⟩
    · cases hr
  | @control b tail hb =>
    obtain rfl | ⟨rfl, -⟩ | ⟨-, hcontrol, -⟩ := exists_of_chars hc heq
    · cases hb
    · cases hb
    · rw [hb] at hcontrol
      cases hcontrol
  | @encoding b tail hr hb h =>
    obtain rfl | ⟨rfl, -⟩ | ⟨-, -, c, rest, chars, hp, hrest, ht⟩ := exists_of_chars hc heq
    · cases hr
    · cases hr
    · have hno (x : Bytes) : b :: tail ≠ String.utf8EncodeChar c ++ x := by
        intro hx
        rw [hx, Utf8.next?_encodeChar] at h
        cases h
      obtain ⟨more, hne, hcut, rfl⟩ := exists_of_append_eq ht hno
      exact ⟨more, rest, chars, hrest, rfl, .encoding hp hcut (List.cons_ne_nil b tail) hne⟩

/-- A document that ends in a text: what is wrong is told by the character in which it ends. -/
theorem read_of_extend {name : String} {m : Cursor} (hq : c.peek = some quote)
    (h : read.FailsWith c f) (hok : read (c.extend t) = .ok name m) :
    ∃ done tail more rest, (∃ chars, Chars done chars) ∧ (∃ chars, Chars rest chars) ∧
      c.rest = quote :: (done ++ tail) ∧ t = more ++ (rest ++ quote :: m.rest) ∧
      Cut c.pos (c.pos + 1 + done.length) tail more f := by
  obtain ⟨done, chars, m', hp, hdone, hbroken⟩ := (read_failsWith_iff hq).1 h
  have hq' : (c.extend t).peek = some quote := by
    rw [Cursor.peek_extend, hq]
    rintro hnil
    rw [Cursor.peek, hnil] at hq
    cases hq
  obtain ⟨_, hp', @⟨inside, chars', hinside⟩⟩ := (read_eq_ok_iff hq').1 hok
  have heq : done ++ (m'.rest ++ t) = inside ++ quote :: m.rest := by
    have hrest : c.rest ++ t = quote :: (inside ++ [quote]) ++ m.rest := hp'.1
    rw [hp.1] at hrest
    simpa using hrest
  -- What is read behind whole characters is what is read from there.
  have hplain := plain_of_chars 0 0 "" m.rest hinside
  rw [← heq, plain_append _ _ _ _ hdone] at hplain
  obtain ⟨inside', chars'', hinside', hpassed, -⟩ := exists_chars_of_plain hplain
  have hmore : m'.rest ++ t = inside' ++ quote :: m.rest := by simpa using hpassed.1
  obtain ⟨more, rest, chars₃, hrest, ht, hcut⟩ := cut_of_broken hbroken hinside' hmore
  have hpos : m'.pos = c.pos + 1 + done.length := by
    rw [hp.2, List.length_cons, Nat.add_assoc, Nat.add_comm 1]
  exact ⟨done, m'.rest, more, rest, ⟨chars, hdone⟩, ⟨chars₃, hrest⟩, hp.1, ht, hpos ▸ hcut⟩

end StringLiteral

end JsonCodec
