/-
A string literal decoded from left to right, one character or escape at a time (`Decodes`).

The reader takes whole runs: it looks for the end of a run first, then for a control character in
it, and decodes what stands in front of that. Where a literal has more than one thing wrong with it,
it could come upon another one first than a reader that takes one character at a time does. It does
not: it gives the same text and stops at the same place, or fails with the same fault.
-/
import JsonCodec.Proofs.Document.CutLiterals

namespace JsonCodec

open Ascii Grammar

/-! ## Escapes -/

namespace Escape

/-- No four hexadecimal digits come next. -/
def NoUnit (bytes : Bytes) : Prop := ∀ digits n more, CodeUnit digits n → bytes ≠ digits ++ more

/-- What is wrong with the bytes behind a backslash, and how far behind the backslash: no escape
begins so, four digits are missing, or a surrogate is without its other half. Of the second escape
of a pair only the digits are faulted where they stand. -/
inductive Wrong : Bytes → Reason → (place : Nat) → Prop
  | letter {b : UInt8} {rest : Bytes} (hu : b ≠ letterU) (h : ∀ c, (b, c) ∉ shortEscapes) :
    Wrong (b :: rest) .invalidEscape 0
  | digits {rest : Bytes} (h : NoUnit rest) : Wrong (letterU :: rest) .invalidEscape 0
  | low {digits rest : Bytes} {n : Nat} (h : CodeUnit digits n) (hn : 0xDC00 ≤ n ∧ n ≤ 0xDFFF) :
    Wrong (letterU :: (digits ++ rest)) .unpairedSurrogate 0
  | alone {high rest : Bytes} {m : Nat} (hh : CodeUnit high m) (hm : 0xD800 ≤ m ∧ m ≤ 0xDBFF)
    (h : ∀ more, rest ≠ backslash :: letterU :: more) :
    Wrong (letterU :: (high ++ rest)) .unpairedSurrogate 0
  | lowDigits {high rest : Bytes} {m : Nat} (hh : CodeUnit high m) (hm : 0xD800 ≤ m ∧ m ≤ 0xDBFF)
    (h : NoUnit rest) : Wrong (letterU :: (high ++ backslash :: letterU :: rest)) .invalidEscape 6
  | mismatch {high low rest : Bytes} {m n : Nat} (hh : CodeUnit high m)
    (hm : 0xD800 ≤ m ∧ m ≤ 0xDBFF) (hl : CodeUnit low n) (hn : ¬(0xDC00 ≤ n ∧ n ≤ 0xDFFF)) :
    Wrong (letterU :: (high ++ backslash :: letterU :: (low ++ rest))) .unpairedSurrogate 0

variable {bytes rest : Bytes} {reason : Reason} {place stop : Nat}

theorem unit?_eq_none_iff : unit? bytes = none ↔ NoUnit bytes := by
  constructor
  · rintro h digits n more hd rfl
    rw [unit?_eq_some_iff.2 ⟨digits, more, rfl, hd⟩] at h
    cases h
  · intro h
    refine Option.eq_none_iff_forall_ne_some.2 fun n hn => ?_
    obtain ⟨digits, more, heq, hd⟩ := unit?_eq_some_iff.1 hn
    exact h digits n more hd heq

theorem short?_eq_none_iff {letter : UInt8} :
    short? letter = none ↔ ∀ c, (letter, c) ∉ shortEscapes := by
  simp only [Option.eq_none_iff_forall_ne_some, ne_eq, short?_eq_some_iff]

theorem isPrefixOf_iff :
    [backslash, letterU].isPrefixOf bytes = true ↔ ∃ more, bytes = backslash :: letterU :: more := by
  rw [List.isPrefixOf_iff_prefix]
  exact exists_congr fun more => eq_comm

/-- Behind a high surrogate. -/
theorem wrong_of_readLow {high : Bytes} {m : Nat} (hh : CodeUnit high m)
    (hm : 0xD800 ≤ m ∧ m ≤ 0xDBFF) (h : readLow m rest = .bad reason place stop) :
    Wrong (letterU :: (high ++ rest)) reason place := by
  rw [readLow] at h
  split at h
  · next hp =>
    obtain ⟨after, rfl⟩ := isPrefixOf_iff.1 hp
    split at h
    · next hu =>
      cases h
      exact .lowDigits hh hm (unit?_eq_none_iff.1 hu)
    · next n hu =>
      split at h
      · cases h
      · next hn =>
        cases h
        obtain ⟨low, more, heq, hl⟩ := unit?_eq_some_iff.1 hu
        obtain rfl : after = low ++ more := heq
        exact .mismatch hh hm hl fun hrange => hn (isLowSurrogate_iff.2 hrange)
  · next hp =>
    cases h
    exact .alone hh hm fun more heq => hp (isPrefixOf_iff.2 ⟨more, heq⟩)

theorem wrong_of_read (h : read bytes = .bad reason place stop) : Wrong bytes reason place := by
  cases bytes with
  | nil => cases h
  | cons letter rest =>
    rw [read] at h
    split at h
    · next hu =>
      subst hu
      rw [readUnit] at h
      split at h
      · next hd =>
        cases h
        exact .digits (unit?_eq_none_iff.1 hd)
      · next n hu =>
        obtain ⟨digits, more, rfl, hd⟩ := unit?_eq_some_iff.1 hu
        split at h
        · next hn =>
          rw [List.drop_left' (length_of_codeUnit hd)] at h
          exact wrong_of_readLow hd (isHighSurrogate_iff.1 hn) h
        · split at h
          · next hn =>
            cases h
            exact .low hd (isLowSurrogate_iff.1 hn)
          · cases h
    · next hu =>
      split at h
      · cases h
      · next hs =>
        cases h
        exact .letter hu (short?_eq_none_iff.1 hs)

theorem exists_read_of_wrong (h : Wrong bytes reason place) :
    ∃ stop, read bytes = .bad reason place stop := by
  cases h with
  | letter hu h => exact ⟨2, by rw [read, if_neg hu, short?_eq_none_iff.2 h]⟩
  | digits h => exact ⟨2, by rw [read, if_pos rfl, readUnit, unit?_eq_none_iff.2 h]⟩
  | @low digits rest n h hn =>
    have hhigh : ¬isHighSurrogate n = true := by
      rw [isHighSurrogate_iff]
      omega
    refine ⟨6, ?_⟩
    rw [read, if_pos rfl, readUnit, unit?_eq_some_iff.2 ⟨digits, rest, rfl, h⟩]
    simp only [if_neg hhigh, if_pos (isLowSurrogate_iff.2 hn)]
  | @alone high rest m hh hm h =>
    have hp : ¬[backslash, letterU].isPrefixOf rest = true := fun hp =>
      (isPrefixOf_iff.1 hp).elim h
    exact ⟨6, by rw [read_of_high hh hm, readLow, if_neg hp]⟩
  | @lowDigits high rest m hh hm h =>
    have hd : unit? ((backslash :: letterU :: rest).drop 2) = none := unit?_eq_none_iff.2 h
    exact ⟨8, by rw [read_of_high hh hm, readLow, if_pos (isPrefixOf_iff.2 ⟨rest, rfl⟩), hd]⟩
  | @mismatch high low rest m n hh hm hl hn =>
    have hd : unit? ((backslash :: letterU :: (low ++ rest)).drop 2) = some n :=
      unit?_eq_some_iff.2 ⟨low, rest, rfl, hl⟩
    have hlow : ¬isLowSurrogate n = true := fun h => hn (isLowSurrogate_iff.1 h)
    refine ⟨12, ?_⟩
    rw [read_of_high hh hm, readLow, if_pos (isPrefixOf_iff.2 ⟨low ++ rest, rfl⟩), hd]
    exact if_neg hlow

/-- The reader faults behind a backslash what is wrong there, and nothing else. -/
theorem exists_read_eq_bad_iff :
    (∃ stop, read bytes = .bad reason place stop) ↔ Wrong bytes reason place :=
  ⟨fun ⟨_, h⟩ => wrong_of_read h, exists_read_of_wrong⟩

end Escape

/-! ## Literals -/

namespace StringLiteral

/-- What comes of a literal that was opened at `opened`, from a cursor on and with `out` decoded so
far, if it is decoded from left to right. What comes next at the cursor says which case it is. -/
inductive Decodes (opened : Nat) : (out : String) → Cursor → Except Fault (String × Cursor) → Prop
  | ended {out : String} {c : Cursor} (h : c.rest = []) :
    Decodes opened out c (.error ⟨.unterminatedString, opened⟩)
  | closed {out : String} {c c' : Cursor} (h : c.Passes [quote] c') :
    Decodes opened out c (.ok (out, c'))
  | escape {out : String} {c m : Cursor} {sequence : Bytes} {x : Char}
    {result : Except Fault (String × Cursor)} (hx : Escaped sequence x)
    (h : c.Passes (backslash :: sequence) m) (more : Decodes opened (out.push x) m result) :
    Decodes opened out c result
  /-- The input ends behind a backslash. -/
  | cut {out : String} {c m : Cursor} (h : c.Passes [backslash] m) (hm : m.rest = []) :
    Decodes opened out c (.error ⟨.unterminatedString, opened⟩)
  | badEscape {out : String} {c m : Cursor} {reason : Reason} {place : Nat}
    (h : c.Passes [backslash] m) (hw : Escape.Wrong m.rest reason place) :
    Decodes opened out c (.error ⟨reason, c.pos + place⟩)
  | control {out : String} {c : Cursor} {b : UInt8} (h : c.peek = some b) (hb : b < 0x20) :
    Decodes opened out c (.error ⟨.controlCharacter, c.pos⟩)
  /-- A character that stands for itself. -/
  | char {out : String} {c m : Cursor} {x : Char} {result : Except Fault (String × Cursor)}
    (hx : IsPlain x) (h : c.Passes (String.utf8EncodeChar x) m)
    (more : Decodes opened (out.push x) m result) : Decodes opened out c result
  | invalid {out : String} {c : Cursor} {b : UInt8} (h : c.peek = some b) (hq : b ≠ quote)
    (hs : b ≠ backslash) (hb : ¬b < 0x20) (hno : ∀ x m, ¬c.Passes (String.utf8EncodeChar x) m) :
    Decodes opened out c (.error ⟨.invalidUtf8, c.pos⟩)

variable {opened pos : Nat} {out : String} {bytes : Bytes} {c : Cursor}
  {result : Except Fault (String × Cursor)}

theorem next?_eq_none_iff :
    Utf8.next? c.rest = none ↔ ∀ x m, ¬c.Passes (String.utf8EncodeChar x) m := by
  constructor
  · rintro h x m ⟨hr, -⟩
    rw [hr, Utf8.next?_encodeChar] at h
    cases h
  · intro h
    refine Option.eq_none_iff_forall_ne_some.2 fun ⟨x, rest⟩ hn => ?_
    exact h x ⟨_, rest⟩ ⟨Utf8.next?_eq_some_iff.1 hn, rfl⟩

/-- The reader that takes one character at a time decodes so. -/
theorem decodes_plain (opened pos : Nat) (out : String) (bytes : Bytes) :
    Decodes opened out ⟨pos, bytes⟩ (plain opened pos out bytes) := by
  have first {pos : Nat} {b : UInt8} {after : Bytes} :
      Cursor.Passes ⟨pos, b :: after⟩ [b] ⟨pos + 1, after⟩ := ⟨rfl, rfl⟩
  fun_induction plain opened pos out bytes with
  | case1 => exact .ended rfl
  | case2 => exact .closed first
  | case3 pos out after x length hr hq ih =>
    obtain ⟨sequence, more, rfl, hx, rfl⟩ := Escape.read_eq_char_iff.1 hr
    rw [List.drop_left] at ih ⊢
    refine .escape hx ⟨rfl, ?_⟩ ih
    rw [List.length_cons, Nat.add_assoc, Nat.add_comm 1]
  | case4 pos out after reason place stop hr =>
    exact .badEscape first (Escape.exists_read_eq_bad_iff.1 ⟨stop, hr⟩)
  | case5 pos out after hr =>
    exact .cut first (Escape.eq_nil_of_read_eq_cut hr)
  | case6 pos out b after hq hs hb => exact .control rfl (of_decide_eq_true hb)
  | case7 pos out b after hq hs hb hn =>
    exact .invalid rfl hq hs (fun h => hb (decide_eq_true h)) (next?_eq_none_iff.1 hn)
  | case8 pos out b after hq hs hb x rest hn ih =>
    have heq := Utf8.next?_eq_some_iff.1 hn
    have hx := isPlain_of_append heq (isRun_iff.2 ⟨hq, hs⟩) (Bool.eq_false_iff.2 hb)
    exact .char hx ⟨heq, rfl⟩ ih

/-- There is no other way of decoding from left to right. -/
theorem plain_of_decodes (h : Decodes opened out c result) :
    plain opened c.pos out c.rest = result := by
  have rest_of_peek {c : Cursor} {b : UInt8} (h : c.peek = some b) : ∃ after, c.rest = b :: after :=
    List.head?_eq_some_iff.1 h
  induction h with
  | ended h =>
    rw [h]
    exact plain_of_broken .ended
  | @closed out c c' h =>
    obtain ⟨pos', rest⟩ := c'
    obtain ⟨hr, rfl⟩ := h
    rw [hr, List.singleton_append, plain, if_pos rfl, List.length_singleton]
  | escape hx h _ ih =>
    rw [← ih, h.1, List.cons_append, plain_escape _ _ _ _ hx, h.2, List.length_cons, Nat.add_assoc,
      Nat.add_comm 1]
  | cut h hm =>
    rw [h.1, hm]
    exact plain_of_broken (.cut rfl)
  | badEscape h hw =>
    obtain ⟨stop, hr⟩ := Escape.exists_read_eq_bad_iff.2 hw
    rw [h.1]
    exact plain_of_broken (.escape hr)
  | control h hb =>
    obtain ⟨after, hr⟩ := rest_of_peek h
    rw [hr]
    exact plain_of_broken (.control (decide_eq_true hb))
  | char hx h _ ih => rw [← ih, h.1, plain_encodeChar _ _ _ _ hx, h.2]
  | invalid h hq hs hb hno =>
    obtain ⟨after, hr⟩ := rest_of_peek h
    have hn := next?_eq_none_iff.2 hno
    rw [hr] at hn ⊢
    exact plain_of_broken (.encoding (isRun_iff.2 ⟨hq, hs⟩) (decide_eq_false hb) hn)

theorem plain_eq_iff_decodes : plain opened c.pos out c.rest = result ↔ Decodes opened out c result :=
  ⟨fun h => h ▸ decodes_plain opened c.pos out c.rest, plain_of_decodes⟩

/-- **The reader of runs agrees with decoding from left to right.** Wherever it starts, what it gives
and where it stops, or what it faults and where, is what comes of the literal behind the opening byte
if that is decoded character by character. -/
theorem outcome_read_eq_iff_decodes :
    ReadM.outcome (read c) = result ↔ Decodes c.pos "" (c.advance 1) result := by
  rw [read, outcome_body, plain_eq_iff_decodes]

end StringLiteral

end JsonCodec
