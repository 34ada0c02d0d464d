/-
Documents that are not finished, and what is wrong with one that is not read.

A reader that goes from the front comes to a `Site`, where something has to come next; the bytes in
front of it are begun (`Begun`), by the grammar. A document is not read just if at such a site the
wrong thing comes next (`Faulty`), and then that is its fault (`read_eq_error_iff`).
-/
import JsonCodec.Proofs.Document.Faults

namespace JsonCodec.Document

open Ascii Grammar NumberLiteral

/-- What has to come next in a document that is not finished. -/
inductive Site where
  /-- A value; or the closing bracket, where the `first` item would be. -/
  | value (first : Bool)
  /-- A comma or the closing bracket. -/
  | itemEnd
  /-- A key; or the closing brace, where the `first` member would be. -/
  | key (first : Bool)
  | colon
  /-- A comma or the closing brace. -/
  | memberEnd
  /-- The end of the document. -/
  | documentEnd

/-- What is begun. -/
inductive Part where
  /-- A value; it may be the `first` item of an array. -/
  | value (first : Bool)
  /-- Items up to the closing bracket. -/
  | items (first : Bool)
  /-- Members up to the closing brace. -/
  | members (first : Bool)
  | document

/-- A value between blanks that does not go on with what comes next. -/
inductive Finished (next : Option UInt8) (n : Nat) : Bytes → Value → Prop
  | mk {before bytes after : Bytes} {v : Value} (hb : Blanks before)
    (h : Denotes exponentSize n bytes v) (ha : Blanks after) (he : Ends bytes (after.head?.or next)) :
    Finished next n (before ++ bytes ++ after) v

/-- The bytes begin a part of `n` levels and lead to a site, where a value may have so many levels.
What comes next tells that numbers end where they are said to. -/
inductive Begun (next : Option UInt8) : Part → (n : Nat) → Bytes → (levels : Nat) → Site → Prop
  | value {first : Bool} {n : Nat} {blanks : Bytes} (hb : Blanks blanks) :
    Begun next (.value first) n blanks n (.value first)
  | array {first : Bool} {n levels : Nat} {blanks bytes : Bytes} {site : Site} (hb : Blanks blanks)
    (h : Begun next (.items true) n bytes levels site) :
    Begun next (.value first) (n + 1) (blanks ++ bracketOpen :: bytes) levels site
  | object {first : Bool} {n levels : Nat} {blanks bytes : Bytes} {site : Site} (hb : Blanks blanks)
    (h : Begun next (.members true) n bytes levels site) :
    Begun next (.value first) (n + 1) (blanks ++ braceOpen :: bytes) levels site
  | item {first : Bool} {n levels : Nat} {bytes : Bytes} {site : Site}
    (h : Begun next (.value first) n bytes levels site) :
    Begun next (.items first) n bytes levels site
  | itemEnd {first : Bool} {n : Nat} {bytes : Bytes} {v : Value} (h : Finished next n bytes v) :
    Begun next (.items first) n bytes n .itemEnd
  | nextItem {first : Bool} {n levels : Nat} {bytes rest : Bytes} {v : Value} {site : Site}
    (hv : Spaced exponentSize n bytes v) (h : Begun next (.items false) n rest levels site) :
    Begun next (.items first) n (bytes ++ comma :: rest) levels site
  | key {first : Bool} {n : Nat} {blanks : Bytes} (hb : Blanks blanks) :
    Begun next (.members first) n blanks n (.key first)
  | colon {first : Bool} {n : Nat} {before literal after : Bytes} {name : String}
    (hb : Blanks before) (h : Text literal name) (ha : Blanks after) :
    Begun next (.members first) n (before ++ literal ++ after) n .colon
  | member {first : Bool} {n levels : Nat} {key bytes : Bytes} {name : String} {site : Site}
    (hk : Key key name) (h : Begun next (.value false) n bytes levels site) :
    Begun next (.members first) n (key ++ Ascii.colon :: bytes) levels site
  | memberEnd {first : Bool} {n : Nat} {key bytes : Bytes} {name : String} {v : Value}
    (hk : Key key name) (h : Finished next n bytes v) :
    Begun next (.members first) n (key ++ Ascii.colon :: bytes) n .memberEnd
  | nextMember {first : Bool} {n levels : Nat} {key bytes rest : Bytes} {name : String} {v : Value}
    {site : Site} (hk : Key key name) (hv : Spaced exponentSize n bytes v)
    (h : Begun next (.members false) n rest levels site) :
    Begun next (.members first) n (key ++ Ascii.colon :: (bytes ++ comma :: rest)) levels site
  | whole {n levels : Nat} {bytes : Bytes} {site : Site}
    (h : Begun next (.value false) n bytes levels site) : Begun next .document n bytes levels site
  | documentEnd {n : Nat} {bytes : Bytes} {v : Value} (h : Finished next n bytes v) :
    Begun next .document n bytes n .documentEnd

/-- The words that are values. -/
def words : List Bytes := [Utf8.encode "true", Utf8.encode "false", Utf8.encode "null"]

/-- What comes next at a site is wrong: no token that may stand there, or one that is not read, or a
bracket too many. -/
inductive Faulty : Site → (levels : Nat) → Cursor → Fault → Prop
  | value {first : Bool} {levels : Nat} {c : Cursor} (h : ∀ b ∈ c.peek, isValueByte b = false)
    (hf : first = true → c.peek ≠ some bracketClose) :
    Faulty (.value first) levels c (c.unexpected .expectedValue)
  | bracket {first : Bool} {c : Cursor} (h : c.peek = some bracketOpen ∨ c.peek = some braceOpen) :
    Faulty (.value first) 0 c ⟨.recursionLimit, c.pos⟩
  | text {first : Bool} {levels : Nat} {c : Cursor} {f : Fault} (hq : c.peek = some quote)
    (h : StringLiteral.read.FailsWith c f) : Faulty (.value first) levels c f
  | number {first : Bool} {levels : Nat} {c : Cursor} {f : Fault} {b : UInt8}
    (hb : c.peek = some b) (hn : b = minus ∨ isDigit b = true)
    (h : NumberLiteral.read.FailsWith c f) : Faulty (.value first) levels c f
  | word {first : Bool} {levels : Nat} {c : Cursor} {f : Fault} {text : Bytes} {v : Value}
    (ht : text ∈ words) (hb : c.peek = text.head?) (h : (Document.word text v).FailsWith c f) :
    Faulty (.value first) levels c f
  | itemEnd {levels : Nat} {c : Cursor} (hc : c.peek ≠ some comma)
    (hb : c.peek ≠ some bracketClose) : Faulty .itemEnd levels c (c.unexpected .expectedItemEnd)
  | key {first : Bool} {levels : Nat} {c : Cursor} (hq : c.peek ≠ some quote)
    (hf : first = true → c.peek ≠ some braceClose) :
    Faulty (.key first) levels c (c.unexpected .expectedKey)
  | keyText {first : Bool} {levels : Nat} {c : Cursor} {f : Fault} (hq : c.peek = some quote)
    (h : StringLiteral.read.FailsWith c f) : Faulty (.key first) levels c f
  | colon {levels : Nat} {c : Cursor} (hc : c.peek ≠ some Ascii.colon) :
    Faulty .colon levels c (c.unexpected .expectedColon)
  | memberEnd {levels : Nat} {c : Cursor} (hc : c.peek ≠ some comma)
    (hb : c.peek ≠ some braceClose) : Faulty .memberEnd levels c (c.unexpected .expectedMemberEnd)
  | documentEnd {levels : Nat} {c : Cursor} (h : c.rest ≠ []) :
    Faulty .documentEnd levels c ⟨.trailingCharacters, c.pos⟩

/-- Reading a part from `c` comes to a site where the wrong thing comes next. -/
def Breaks (part : Part) (n : Nat) (c : Cursor) (f : Fault) : Prop :=
  ∃ bytes levels site m, Begun m.peek part n bytes levels site ∧ c.Passes bytes m ∧
    m.Stops isBlank ∧ Faulty site levels m f

variable {c m : Cursor} {f : Fault} {n turns : Nat} {first : Bool}

/-! ## From part to part -/

theorem breaks_value_iff :
    Breaks (.value first) n c f ↔ Faulty (.value first) n c.skipBlanks f ∨
      (∃ k, n = k + 1 ∧ c.skipBlanks.peek = some bracketOpen ∧
        Breaks (.items true) k (c.skipBlanks.advance 1) f) ∨
      ∃ k, n = k + 1 ∧ c.skipBlanks.peek = some braceOpen ∧
        Breaks (.members true) k (c.skipBlanks.advance 1) f := by
  constructor
  · rintro ⟨_, levels, site, m, h, hp, hs, hf⟩
    cases h with
    | value hb =>
      rw [skipBlanks_eq_iff.2 ⟨_, hp, hb, hs⟩]
      exact .inl hf
    | @array _ k _ blanks bytes _ hb h =>
      obtain ⟨m₁, hp₁, hp₂⟩ := Cursor.passes_append.1 hp
      obtain ⟨hpeek, hp₃⟩ := Cursor.passes_cons.1 hp₂
      rw [skipBlanks_of_passes hp₁ hb hpeek rfl]
      exact .inr (.inl ⟨k, rfl, hpeek, bytes, levels, site, m, h, hp₃, hs, hf⟩)
    | @object _ k _ blanks bytes _ hb h =>
      obtain ⟨m₁, hp₁, hp₂⟩ := Cursor.passes_append.1 hp
      obtain ⟨hpeek, hp₃⟩ := Cursor.passes_cons.1 hp₂
      rw [skipBlanks_of_passes hp₁ hb hpeek rfl]
      exact .inr (.inr ⟨k, rfl, hpeek, bytes, levels, site, m, h, hp₃, hs, hf⟩)
  · obtain ⟨blanks, hp, hb, hs⟩ := skipBlanks_eq_iff.1 (rfl : c.skipBlanks = c.skipBlanks)
    rintro (hf | ⟨k, rfl, hpeek, bytes, levels, site, m, h, hp', hs', hf⟩ |
      ⟨k, rfl, hpeek, bytes, levels, site, m, h, hp', hs', hf⟩)
    · exact ⟨blanks, n, _, c.skipBlanks, .value hb, hp, hs, hf⟩
    · have hopen := hp.trans (Cursor.passes_cons.2 ⟨hpeek, hp'⟩)
      exact ⟨_, levels, site, m, .array hb h, hopen, hs', hf⟩
    · have hopen := hp.trans (Cursor.passes_cons.2 ⟨hpeek, hp'⟩)
      exact ⟨_, levels, site, m, .object hb h, hopen, hs', hf⟩

variable {item : ReadM Value} {v : Value}

/-- A value between blanks is what is read and the blanks behind it. -/
theorem finished_iff (h : Reads item n turns) (hl : c.rest.length ≤ turns) :
    (∃ m', item c = .ok v m' ∧ m'.skipBlanks = m) ↔
      ∃ bytes, Finished m.peek n bytes v ∧ c.Passes bytes m ∧ m.Stops isBlank := by
  constructor
  · rintro ⟨m', hi, hm⟩
    obtain ⟨before, bytes, hb, hp, hv, he⟩ := h.sound hi
    obtain ⟨after, hpa, ha, hs⟩ := skipBlanks_eq_iff.1 hm
    rw [hpa.peek_eq] at he
    exact ⟨_, .mk hb hv ha he, hp.trans hpa, hs⟩
  · rintro ⟨_, ⟨hb, hv, ha, he⟩, hp, hs⟩
    obtain ⟨m', hp', hpa⟩ := Cursor.passes_append.1 hp
    rw [← hpa.peek_eq] at he
    exact ⟨m', h.complete hl hb hp' hv he, skipBlanks_eq_iff.2 ⟨_, hpa, ha, hs⟩⟩

theorem breaks_items_iff (h : Reads item n turns) (hl : c.rest.length ≤ turns) :
    Breaks (.items first) n c f ↔ Breaks (.value first) n c f ∨ ∃ v m, item c = .ok v m ∧
      (Faulty .itemEnd n m.skipBlanks f ∨
        m.skipBlanks.peek = some comma ∧ Breaks (.items false) n (m.skipBlanks.advance 1) f) := by
  constructor
  · rintro ⟨_, levels, site, m, hbegun, hp, hs, hf⟩
    cases hbegun with
    | item hbegun => exact .inl ⟨_, levels, site, m, hbegun, hp, hs, hf⟩
    | itemEnd hv =>
      obtain ⟨m', hi, rfl⟩ := (finished_iff h hl).2 ⟨_, hv, hp, hs⟩
      exact .inr ⟨_, m', hi, .inl hf⟩
    | @nextItem _ _ _ bytes rest v _ hv hbegun =>
      obtain ⟨m₁, hp₁, hp₂⟩ := Cursor.passes_append.1 hp
      obtain ⟨hpeek, hp₃⟩ := Cursor.passes_cons.1 hp₂
      obtain ⟨m', hi, rfl⟩ := h.spaced_complete hl hv hp₁ hpeek rfl rfl
      exact .inr ⟨v, m', hi, .inr ⟨hpeek, rest, levels, site, m, hbegun, hp₃, hs, hf⟩⟩
  · rintro (⟨bytes, levels, site, m, hbegun, hp, hs, hf⟩ | ⟨v, m', hi, hf | ⟨hpeek, hf⟩⟩)
    · exact ⟨bytes, levels, site, m, .item hbegun, hp, hs, hf⟩
    · obtain ⟨bytes, hv, hp, hs⟩ := (finished_iff h hl).1 ⟨m', hi, rfl⟩
      exact ⟨bytes, n, .itemEnd, _, .itemEnd hv, hp, hs, hf⟩
    · obtain ⟨rest, levels, site, m, hbegun, hp, hs, hf⟩ := hf
      obtain ⟨bytes, hv, hpv⟩ := h.spaced_sound hi
      have hpc := hpv.trans (Cursor.passes_cons.2 ⟨hpeek, hp⟩)
      exact ⟨_, levels, site, m, .nextItem hv hbegun, hpc, hs, hf⟩

/-- How reading a key goes wrong. -/
theorem key_failsWith_iff :
    key.FailsWith c f ↔
      c.skipBlanks.peek = some quote ∧ (StringLiteral.read.FailsWith c.skipBlanks f ∨
        ∃ name m, StringLiteral.read c.skipBlanks = .ok name m ∧
          m.skipBlanks.peek ≠ some colon ∧ f = m.skipBlanks.unexpected .expectedColon) ∨
      c.skipBlanks.peek ≠ some quote ∧ f = c.skipBlanks.unexpected .expectedKey := by
  simp only [key, ReadM.failsWith_skipBlanks_bind_iff, ReadM.failsWith_peek_bind_iff,
    ReadM.failsWith_ite_iff, ReadM.failsWith_bind_iff (r := StringLiteral.read),
    ReadM.failsWith_advance_bind_iff, ReadM.failsWith_pure_iff, ReadM.failsWith_unexpected_iff,
    and_false, false_or, ne_eq]

/-- How a turn over an item goes wrong. -/
theorem items_failsWith_succ_iff {done : Array Value} :
    (items item (turns + 1) done).FailsWith c f ↔ item.FailsWith c f ∨ ∃ v m, item c = .ok v m ∧
      (m.skipBlanks.peek = some comma ∧
          (items item turns (done.push v)).FailsWith (m.skipBlanks.advance 1) f ∨
        m.skipBlanks.peek ≠ some comma ∧ m.skipBlanks.peek ≠ some bracketClose ∧
          f = m.skipBlanks.unexpected .expectedItemEnd) := by
  simp only [items, ReadM.failsWith_skipBlanks_bind_iff, ReadM.failsWith_peek_bind_iff,
    ReadM.failsWith_ite_iff, ReadM.failsWith_bind_iff (r := item), ReadM.failsWith_advance_bind_iff,
    ReadM.failsWith_pure_iff, ReadM.failsWith_unexpected_iff, and_false, false_or, ne_eq]

/-- How a turn over a member goes wrong. -/
theorem members_failsWith_succ_iff {done : Collector} :
    (members item (turns + 1) done).FailsWith c f ↔ key.FailsWith c f ∨ ∃ name k, key c = .ok name k ∧
      (item.FailsWith k f ∨ ∃ v m, item k = .ok v m ∧
        (m.skipBlanks.peek = some comma ∧
            (members item turns (done.insert name v)).FailsWith (m.skipBlanks.advance 1) f ∨
          m.skipBlanks.peek ≠ some comma ∧ m.skipBlanks.peek ≠ some braceClose ∧
            f = m.skipBlanks.unexpected .expectedMemberEnd)) := by
  simp only [members, ReadM.failsWith_skipBlanks_bind_iff, ReadM.failsWith_peek_bind_iff,
    ReadM.failsWith_ite_iff, ReadM.failsWith_bind_iff (r := key),
    ReadM.failsWith_bind_iff (r := item), ReadM.failsWith_advance_bind_iff,
    ReadM.failsWith_pure_iff, ReadM.failsWith_unexpected_iff, and_false, false_or, ne_eq]

/-- Reading members goes wrong in the key, in the value or behind it. -/
theorem breaks_members_iff (h : Reads item n turns) (hl : c.rest.length ≤ turns)
    (hfirst : first = true → c.skipBlanks.peek ≠ some braceClose) :
    Breaks (.members first) n c f ↔ key.FailsWith c f ∨ ∃ name k, key c = .ok name k ∧
      (Breaks (.value false) n k f ∨ ∃ v m, item k = .ok v m ∧
        (Faulty .memberEnd n m.skipBlanks f ∨
          m.skipBlanks.peek = some comma ∧ Breaks (.members false) n (m.skipBlanks.advance 1) f)) := by
  have hbehind {key : Bytes} {k : Cursor} (hp : c.Passes (key ++ [colon]) k) :
      k.rest.length ≤ turns := by
    have hlen := hp.length
    omega
  constructor
  · rintro ⟨_, levels, site, m, hbegun, hp, hs, hf⟩
    cases hbegun with
    | key hb =>
      obtain rfl := skipBlanks_eq_iff.2 ⟨_, hp, hb, hs⟩
      refine .inl (key_failsWith_iff.2 ?_)
      cases hf with
      | key hq _ => exact .inr ⟨hq, rfl⟩
      | keyText hq hf => exact .inl ⟨hq, .inl hf⟩
    | @colon _ _ before literal after name hb ht ha =>
      obtain ⟨m₂, hp₂, hpa⟩ := Cursor.passes_append.1 hp
      obtain ⟨m₁, hpb, hpt⟩ := Cursor.passes_append.1 hp₂
      have hq := peek_of_text ht hpt
      have hread := (StringLiteral.read_eq_ok_iff hq).2 ⟨literal, hpt, ht⟩
      obtain rfl := skipBlanks_of_passes hpb hb hq rfl
      obtain rfl := skipBlanks_eq_iff.2 ⟨after, hpa, ha, hs⟩
      cases hf with
      | colon hc => exact .inl (key_failsWith_iff.2 (.inl ⟨hq, .inr ⟨name, m₂, hread, hc, rfl⟩⟩))
    | @member _ _ _ key bytes name _ hk hbegun =>
      obtain ⟨k, hpk, hp'⟩ := Cursor.passes_append_cons.1 hp
      exact .inr ⟨name, k, key_eq_ok_iff.2 ⟨key, hk, hpk⟩,
        .inl ⟨bytes, levels, site, m, hbegun, hp', hs, hf⟩⟩
    | @memberEnd _ _ key bytes name v hk hv =>
      obtain ⟨k, hpk, hp'⟩ := Cursor.passes_append_cons.1 hp
      obtain ⟨m', hi, rfl⟩ := (finished_iff h (hbehind hpk)).2 ⟨bytes, hv, hp', hs⟩
      exact .inr ⟨name, k, key_eq_ok_iff.2 ⟨key, hk, hpk⟩, .inr ⟨v, m', hi, .inl hf⟩⟩
    | @nextMember _ _ _ key bytes rest name v _ hk hv hbegun =>
      obtain ⟨k, hpk, hp'⟩ := Cursor.passes_append_cons.1 hp
      obtain ⟨m₁, hp₁, hp₂⟩ := Cursor.passes_append.1 hp'
      obtain ⟨hpeek, hp₃⟩ := Cursor.passes_cons.1 hp₂
      obtain ⟨m', hi, rfl⟩ := h.spaced_complete (hbehind hpk) hv hp₁ hpeek rfl rfl
      exact .inr ⟨name, k, key_eq_ok_iff.2 ⟨key, hk, hpk⟩,
        .inr ⟨v, m', hi, .inr ⟨hpeek, rest, levels, site, m, hbegun, hp₃, hs, hf⟩⟩⟩
  · rintro (hf | ⟨name, k, hkey, hbreaks⟩)
    · obtain ⟨before, hpb, hb, hs⟩ := skipBlanks_eq_iff.1 (rfl : c.skipBlanks = c.skipBlanks)
      rcases key_failsWith_iff.1 hf with ⟨hq, hf | ⟨name, m', hread, hc, rfl⟩⟩ | ⟨hq, rfl⟩
      · exact ⟨before, n, .key first, _, .key hb, hpb, hs, .keyText hq hf⟩
      · obtain ⟨literal, hpt, ht⟩ := (StringLiteral.read_eq_ok_iff hq).1 hread
        obtain ⟨after, hpa, ha, hs'⟩ := skipBlanks_eq_iff.1 (rfl : m'.skipBlanks = m'.skipBlanks)
        exact ⟨_, n, .colon, _, .colon hb ht ha, (hpb.trans hpt).trans hpa, hs', .colon hc⟩
      · exact ⟨before, n, .key first, _, .key hb, hpb, hs, .key hq hfirst⟩
    · obtain ⟨key, hk, hpk⟩ := key_eq_ok_iff.1 hkey
      rcases hbreaks with ⟨bytes, levels, site, m, hbegun, hp, hs, hf⟩ | ⟨v, m', hi, hf | ⟨hpeek, hf⟩⟩
      · have hpm := Cursor.passes_append_cons.2 ⟨k, hpk, hp⟩
        exact ⟨_, levels, site, m, .member hk hbegun, hpm, hs, hf⟩
      · obtain ⟨bytes, hv, hp, hs⟩ := (finished_iff h (hbehind hpk)).1 ⟨m', hi, rfl⟩
        have hpm := Cursor.passes_append_cons.2 ⟨k, hpk, hp⟩
        exact ⟨_, n, .memberEnd, _, .memberEnd hk hv, hpm, hs, hf⟩
      · obtain ⟨rest, levels, site, m, hbegun, hp, hs, hf⟩ := hf
        obtain ⟨bytes, hv, hpv⟩ := h.spaced_sound hi
        have hpc := hpv.trans (Cursor.passes_cons.2 ⟨hpeek, hp⟩)
        have hpm := Cursor.passes_append_cons.2 ⟨k, hpk, hpc⟩
        exact ⟨_, levels, site, m, .nextMember hk hv hbegun, hpm, hs, hf⟩

/-! ## Loops -/

theorem faulty_itemEnd_iff : Faulty .itemEnd n c f ↔
    c.peek ≠ some comma ∧ c.peek ≠ some bracketClose ∧ f = c.unexpected .expectedItemEnd := by
  constructor
  · rintro ⟨⟩
    exact ⟨‹_›, ‹_›, rfl⟩
  · rintro ⟨hc, hb, rfl⟩
    exact .itemEnd hc hb

theorem faulty_memberEnd_iff : Faulty .memberEnd n c f ↔
    c.peek ≠ some comma ∧ c.peek ≠ some braceClose ∧ f = c.unexpected .expectedMemberEnd := by
  constructor
  · rintro ⟨⟩
    exact ⟨‹_›, ‹_›, rfl⟩
  · rintro ⟨hc, hb, rfl⟩
    exact .memberEnd hc hb

theorem length_skipBlanks_le (c : Cursor) : c.skipBlanks.rest.length ≤ c.rest.length := by
  obtain ⟨blanks, -, hp⟩ := passes_skipBlanks c
  have hlen := hp.length
  omega

theorem length_advance_of_peek {b : UInt8} (h : c.peek = some b) :
    (c.advance 1).rest.length + 1 = c.rest.length := by
  have hp : c.Passes [b] (c.advance 1) := Cursor.passes_singleton.2 ⟨h, rfl⟩
  rw [hp.length, List.length_singleton, Nat.add_comm]

theorem Reads.length_le (h : Reads item n turns) (hi : item c = .ok v m) :
    m.skipBlanks.rest.length ≤ c.rest.length := by
  obtain ⟨bytes, -, hp⟩ := h.spaced_sound hi
  have hlen := hp.length
  omega

/-- A reader of values fails where they go wrong. -/
def Fails (item : ReadM Value) (n turns : Nat) : Prop :=
  ∀ {first : Bool} {c : Cursor} {f : Fault}, c.rest.length ≤ turns →
    (first = true → c.skipBlanks.peek ≠ some bracketClose) →
    (item.FailsWith c f ↔ Breaks (.value first) n c f)

theorem items_failsWith_iff (h : Reads item n turns) (hitem : Fails item n turns) {t : Nat}
    {done : Array Value} (hl : c.rest.length ≤ turns) (ht : c.rest.length < t)
    (hfirst : first = true → c.skipBlanks.peek ≠ some bracketClose) :
    (items item t done).FailsWith c f ↔ Breaks (.items first) n c f := by
  induction t generalizing c done first with
  | zero => exact absurd ht (Nat.not_lt_zero _)
  | succ t ih =>
    rw [items_failsWith_succ_iff, breaks_items_iff h hl]
    refine or_congr (hitem hl hfirst) (exists_congr fun v => exists_congr fun m => ?_)
    refine and_congr_right fun hi => ?_
    rw [faulty_itemEnd_iff, or_comm]
    refine or_congr Iff.rfl (and_congr_right fun hpeek => ?_)
    have hle := h.length_le hi
    have hlt := length_advance_of_peek hpeek
    exact ih (by omega) (by omega) nofun

theorem members_failsWith_iff (h : Reads item n turns) (hitem : Fails item n turns) {t : Nat}
    {done : Collector} (hl : c.rest.length ≤ turns) (ht : c.rest.length < t)
    (hfirst : first = true → c.skipBlanks.peek ≠ some braceClose) :
    (members item t done).FailsWith c f ↔ Breaks (.members first) n c f := by
  induction t generalizing c done first with
  | zero => exact absurd ht (Nat.not_lt_zero _)
  | succ t ih =>
    rw [members_failsWith_succ_iff, breaks_members_iff h hl hfirst]
    refine or_congr Iff.rfl (exists_congr fun name => exists_congr fun k => ?_)
    refine and_congr_right fun hkey => ?_
    obtain ⟨_, -, hpk⟩ := key_eq_ok_iff.1 hkey
    have hlk := hpk.length
    refine or_congr (hitem (by omega) nofun) (exists_congr fun v => exists_congr fun m => ?_)
    refine and_congr_right fun hi => ?_
    rw [faulty_memberEnd_iff, or_comm]
    refine or_congr Iff.rfl (and_congr_right fun hpeek => ?_)
    have hle := h.length_le hi
    have hlt := length_advance_of_peek hpeek
    exact ih (by omega) (by omega) nofun

/-! ## Containers -/

theorem Faulty.peek_ne (h : Faulty (.value true) n c f) : c.peek ≠ some bracketClose := by
  cases h with
  | value _ hf => exact hf rfl
  | bracket h => rcases h with h | h <;> rw [h] <;> decide
  | text hq => rw [hq]; decide
  | number hb hn =>
    rw [hb]
    rintro ⟨⟩
    rcases hn with hn | hn <;> cases hn
  | word ht hb =>
    rw [hb]
    simp only [words, List.mem_cons, List.not_mem_nil, or_false] at ht
    rcases ht with rfl | rfl | rfl <;> decide

theorem peek_ne_of_ok (h : Reads item n turns) (hi : item c = .ok v m) :
    c.skipBlanks.peek ≠ some bracketClose := by
  obtain ⟨bytes, hv, hp⟩ := h.spaced_sound hi
  obtain ⟨b, hb, hvalue⟩ := peek_of_spaced hv hp
  rw [hb]
  rintro ⟨⟩
  cases hvalue

/-- An array that is closed at once does not go wrong. -/
theorem Breaks.peek_ne_bracketClose (h : Reads item n turns) (hl : c.rest.length ≤ turns)
    (hb : Breaks (.items true) n c f) : c.skipBlanks.peek ≠ some bracketClose := by
  rcases (breaks_items_iff h hl).1 hb with hb | ⟨v, m, hi, -⟩
  · rcases breaks_value_iff.1 hb with hf | ⟨_, -, hpeek, -⟩ | ⟨_, -, hpeek, -⟩
    · exact hf.peek_ne
    · rw [hpeek]; decide
    · rw [hpeek]; decide
  · exact peek_ne_of_ok h hi

/-- An object that is closed at once does not go wrong. -/
theorem Breaks.peek_ne_braceClose (hb : Breaks (.members true) n c f) :
    c.skipBlanks.peek ≠ some braceClose := by
  obtain ⟨_, levels, site, m, hbegun, hp, hs, hf⟩ := hb
  cases hbegun with
  | key hblanks =>
    obtain rfl := skipBlanks_eq_iff.2 ⟨_, hp, hblanks, hs⟩
    cases hf with
    | key _ hf => exact hf rfl
    | keyText hq _ => rw [hq]; decide
  | @colon _ _ before literal after name hb ht ha =>
    obtain ⟨m₂, hp₂, -⟩ := Cursor.passes_append.1 hp
    obtain ⟨m₁, hpb, hpt⟩ := Cursor.passes_append.1 hp₂
    have hq := peek_of_text ht hpt
    rw [skipBlanks_of_passes hpb hb hq rfl, hq]
    decide
  | member hk _ | memberEnd hk _ | nextMember hk _ _ =>
    obtain ⟨m₁, hpk, -⟩ := Cursor.passes_append.1 hp
    rw [peek_of_key hk hpk]
    decide

theorem array_failsWith_iff (h : Reads item n turns) (hitem : Fails item n turns)
    (hl : c.rest.length ≤ turns) (hb : c.peek = some bracketOpen) :
    (array item turns).FailsWith c f ↔ Breaks (.items true) n (c.advance 1) f := by
  have hlt := length_advance_of_peek hb
  have hle := length_skipBlanks_le (c.advance 1)
  have hblanks : Breaks (.items true) n (c.advance 1).skipBlanks f ↔
      Breaks (.items true) n (c.advance 1) f := by
    rw [breaks_items_iff h (by omega), breaks_items_iff h (by omega), breaks_value_iff,
      breaks_value_iff, skipBlanks_skipBlanks, h.blanks]
  simp only [array, ReadM.failsWith_advance_bind_iff, ReadM.failsWith_skipBlanks_bind_iff,
    ReadM.failsWith_peek_bind_iff, ReadM.failsWith_ite_iff, ReadM.failsWith_pure_iff, and_false,
    false_or]
  rw [← hblanks]
  constructor
  · rintro ⟨hne, hf⟩
    refine (items_failsWith_iff h hitem (by omega) (by omega) fun _ => ?_).1 hf
    rwa [skipBlanks_skipBlanks]
  · intro hf
    have hne := hf.peek_ne_bracketClose h (by omega)
    refine ⟨by rwa [skipBlanks_skipBlanks] at hne, ?_⟩
    exact (items_failsWith_iff h hitem (by omega) (by omega) fun _ => hne).2 hf

theorem object_failsWith_iff (h : Reads item n turns) (hitem : Fails item n turns)
    (hl : c.rest.length ≤ turns) (hb : c.peek = some braceOpen) :
    (object item turns).FailsWith c f ↔ Breaks (.members true) n (c.advance 1) f := by
  have hlt := length_advance_of_peek hb
  have hle := length_skipBlanks_le (c.advance 1)
  have hblanks (hne : (c.advance 1).skipBlanks.peek ≠ some braceClose) :
      Breaks (.members true) n (c.advance 1).skipBlanks f ↔
        Breaks (.members true) n (c.advance 1) f := by
    have hne' : (c.advance 1).skipBlanks.skipBlanks.peek ≠ some braceClose := by
      rwa [skipBlanks_skipBlanks]
    rw [breaks_members_iff h (by omega) fun _ => hne', breaks_members_iff h (by omega) fun _ => hne,
      key_skipBlanks]
    simp only [ReadM.FailsWith, key_skipBlanks]
  simp only [object, ReadM.failsWith_advance_bind_iff, ReadM.failsWith_skipBlanks_bind_iff,
    ReadM.failsWith_peek_bind_iff, ReadM.failsWith_ite_iff, ReadM.failsWith_pure_iff, and_false,
    false_or]
  constructor
  · rintro ⟨hne, hf⟩
    refine (hblanks hne).1 ((members_failsWith_iff h hitem (by omega) (by omega) fun _ => ?_).1 hf)
    rwa [skipBlanks_skipBlanks]
  · intro hf
    have hne := hf.peek_ne_braceClose
    have hf' := (hblanks hne).2 hf
    refine ⟨hne, (members_failsWith_iff h hitem (by omega) (by omega) fun _ => ?_).2 hf'⟩
    rwa [skipBlanks_skipBlanks]

/-! ## Values -/

theorem isValueByte_eq_false_iff {b : UInt8} : isValueByte b = false ↔
    b ≠ braceOpen ∧ b ≠ bracketOpen ∧ b ≠ quote ∧ ¬(b = minus ∨ isDigit b = true) ∧ b ≠ letterT ∧
      b ≠ letterF ∧ b ≠ letterN := by
  simp [isValueByte, and_assoc]

/-- What is wrong with the first byte of a value, or behind it, where that opens no container. -/
theorem faulty_of_value_failsWith (hbrace : c.skipBlanks.peek ≠ some braceOpen)
    (hbracket : c.skipBlanks.peek ≠ some bracketOpen) (h : (value turns n).FailsWith c f) :
    Faulty (.value false) n c.skipBlanks f := by
  obtain ⟨c', h⟩ := h
  rw [value_eq] at h
  cases hb : c.skipBlanks.peek with
  | none =>
    rw [hb] at h
    cases h
    exact .value (by simp [hb]) nofun
  | some b =>
    rw [hb, ne_eq, Option.some.injEq] at hbrace hbracket
    simp only [hb, if_neg hbrace, if_neg hbracket] at h
    by_cases hquote : b = quote
    · rw [if_pos hquote] at h
      have hread := ReadM.failsWith_bind_iff.1 ⟨c', h⟩
      simp only [ReadM.failsWith_pure_iff, and_false, exists_false, or_false] at hread
      exact .text (hquote ▸ hb) hread
    rw [if_neg hquote] at h
    by_cases hnumber : b = minus ∨ isDigit b = true
    · rw [if_pos hnumber] at h
      exact .number hb hnumber ⟨c', h⟩
    rw [if_neg hnumber] at h
    by_cases ht : b = letterT
    · rw [if_pos ht] at h
      have hhead : c.skipBlanks.peek = (Utf8.encode "true").head? := by rw [hb, ht]; rfl
      exact .word (by simp [words]) hhead ⟨c', h⟩
    rw [if_neg ht] at h
    by_cases hf : b = letterF
    · rw [if_pos hf] at h
      have hhead : c.skipBlanks.peek = (Utf8.encode "false").head? := by rw [hb, hf]; rfl
      exact .word (by simp [words]) hhead ⟨c', h⟩
    rw [if_neg hf] at h
    by_cases hn : b = letterN
    · rw [if_pos hn] at h
      have hhead : c.skipBlanks.peek = (Utf8.encode "null").head? := by rw [hb, hn]; rfl
      exact .word (by simp [words]) hhead ⟨c', h⟩
    rw [if_neg hn] at h
    cases h
    refine .value (fun x hx => ?_) nofun
    rw [hb, Option.mem_some_iff] at hx
    rw [← hx, isValueByte_eq_false_iff]
    exact ⟨hbrace, hbracket, hquote, hnumber, ht, hf, hn⟩

theorem value_failsWith_of_faulty (h : Faulty (.value false) n c.skipBlanks f) :
    (value turns n).FailsWith c f := by
  rw [ReadM.FailsWith, value_eq]
  cases h with
  | value hb _ =>
    cases hpeek : c.skipBlanks.peek with
    | none => exact ⟨_, rfl⟩
    | some b =>
      obtain ⟨hbrace, hbracket, hquote, hnumber, ht, hf, hn⟩ :=
        isValueByte_eq_false_iff.1 (hb b hpeek)
      simp only [if_neg hbrace, if_neg hbracket, if_neg hquote, if_neg hnumber, if_neg ht, if_neg hf,
        if_neg hn]
      exact ⟨_, rfl⟩
  | bracket hb =>
    rcases hb with hb | hb <;> rw [hb] <;> exact ⟨_, rfl⟩
  | text hq hread =>
    rw [hq]
    exact ReadM.failsWith_bind_iff.2 (.inl hread)
  | @number _ _ _ _ b hb hnumber hread =>
    rw [hb]
    have hbrace : b ≠ braceOpen := by rintro rfl; rcases hnumber with h | h <;> cases h
    have hbracket : b ≠ bracketOpen := by rintro rfl; rcases hnumber with h | h <;> cases h
    have hquote : b ≠ quote := by rintro rfl; rcases hnumber with h | h <;> cases h
    simp only [if_neg hbrace, if_neg hbracket, if_neg hquote, if_pos hnumber]
    exact hread
  | word ht hb hread =>
    rw [hb]
    rw [word_failsWith_iff] at hread
    simp only [words, List.mem_cons, List.not_mem_nil, or_false] at ht
    rcases ht with rfl | rfl | rfl <;> exact word_failsWith_iff.2 hread

theorem faulty_value_iff (h : first = true → c.peek ≠ some bracketClose) :
    Faulty (.value first) n c f ↔ Faulty (.value false) n c f := by
  constructor
  · rintro (⟨hb, -⟩ | hb | ⟨hq, hf⟩ | ⟨hb, hn, hf⟩ | ⟨ht, hb, hf⟩)
    · exact .value hb nofun
    · exact .bracket hb
    · exact .text hq hf
    · exact .number hb hn hf
    · exact .word ht hb hf
  · rintro (⟨hb, -⟩ | hb | ⟨hq, hf⟩ | ⟨hb, hn, hf⟩ | ⟨ht, hb, hf⟩)
    · exact .value hb h
    · exact .bracket hb
    · exact .text hq hf
    · exact .number hb hn hf
    · exact .word ht hb hf

theorem value_failsWith_of_bracketOpen (h : c.skipBlanks.peek = some bracketOpen) :
    (value turns n).FailsWith c f ↔ (arrayAt turns n).FailsWith c.skipBlanks f := by
  rw [ReadM.FailsWith, value_eq, h]
  rfl

theorem value_failsWith_of_braceOpen (h : c.skipBlanks.peek = some braceOpen) :
    (value turns n).FailsWith c f ↔ (objectAt turns n).FailsWith c.skipBlanks f := by
  rw [ReadM.FailsWith, value_eq, h]
  rfl

theorem fails_of_fails (ih : ∀ k, n = k + 1 → Fails (value turns k) k turns) :
    Fails (value turns n) n turns := by
  intro first c f hl hfirst
  have hle := length_skipBlanks_le c
  rw [breaks_value_iff, faulty_value_iff hfirst]
  constructor
  · intro h
    by_cases hbrace : c.skipBlanks.peek = some braceOpen
    · rw [value_failsWith_of_braceOpen hbrace] at h
      cases n with
      | zero =>
        obtain rfl := ReadM.failsWith_failHere_iff.1 h
        exact .inl (.bracket (.inr hbrace))
      | succ k =>
        exact .inr (.inr ⟨k, rfl, hbrace,
          (object_failsWith_iff (reads_value turns k) (ih k rfl) (by omega) hbrace).1 h⟩)
    by_cases hbracket : c.skipBlanks.peek = some bracketOpen
    · rw [value_failsWith_of_bracketOpen hbracket] at h
      cases n with
      | zero =>
        obtain rfl := ReadM.failsWith_failHere_iff.1 h
        exact .inl (.bracket (.inl hbracket))
      | succ k =>
        exact .inr (.inl ⟨k, rfl, hbracket,
          (array_failsWith_iff (reads_value turns k) (ih k rfl) (by omega) hbracket).1 h⟩)
    exact .inl (faulty_of_value_failsWith hbrace hbracket h)
  · rintro (h | ⟨k, rfl, hpeek, h⟩ | ⟨k, rfl, hpeek, h⟩)
    · exact value_failsWith_of_faulty h
    · rw [value_failsWith_of_bracketOpen hpeek]
      exact (array_failsWith_iff (reads_value turns k) (ih k rfl) (by omega) hpeek).2 h
    · rw [value_failsWith_of_braceOpen hpeek]
      exact (object_failsWith_iff (reads_value turns k) (ih k rfl) (by omega) hpeek).2 h

/-- **Reading a value fails where it goes wrong by the grammar, and nowhere else.** -/
theorem fails_value (turns : Nat) : ∀ n, Fails (value turns n) n turns
  | 0 => fails_of_fails (n := 0) fun _ h => nomatch h
  | n + 1 => fails_of_fails fun k h => by
    cases h
    exact fails_value turns n

/-! ## Documents -/

theorem breaks_document_iff (hl : c.rest.length ≤ turns) :
    Breaks .document n c f ↔ Breaks (.value false) n c f ∨ ∃ v m, value turns n c = .ok v m ∧
      Faulty .documentEnd n m.skipBlanks f := by
  have h := reads_value turns n
  constructor
  · rintro ⟨bytes, levels, site, m, hbegun, hp, hs, hf⟩
    cases hbegun with
    | whole hbegun => exact .inl ⟨bytes, levels, site, m, hbegun, hp, hs, hf⟩
    | documentEnd hv =>
      obtain ⟨m', hi, rfl⟩ := (finished_iff h hl).2 ⟨bytes, hv, hp, hs⟩
      exact .inr ⟨_, m', hi, hf⟩
  · rintro (⟨bytes, levels, site, m, hbegun, hp, hs, hf⟩ | ⟨v, m', hi, hf⟩)
    · exact ⟨bytes, levels, site, m, .whole hbegun, hp, hs, hf⟩
    · obtain ⟨bytes, hv, hp, hs⟩ := (finished_iff h hl).1 ⟨m', hi, rfl⟩
      exact ⟨bytes, n, .documentEnd, _, .documentEnd hv, hp, hs, hf⟩

theorem faulty_documentEnd_iff :
    Faulty .documentEnd n c f ↔ c.rest ≠ [] ∧ f = ⟨.trailingCharacters, c.pos⟩ := by
  constructor
  · rintro ⟨⟩
    exact ⟨‹_›, rfl⟩
  · rintro ⟨h, rfl⟩
    exact .documentEnd h

theorem whole_failsWith_iff (hl : c.rest.length ≤ turns) :
    (whole turns n).FailsWith c f ↔ Breaks .document n c f := by
  rw [breaks_document_iff hl, whole, ReadM.failsWith_bind_iff]
  refine or_congr (fails_value turns n hl fun h => absurd h Bool.false_ne_true) ?_
  refine exists_congr fun v => exists_congr fun m => ?_
  simp only [ReadM.failsWith_skipBlanks_bind_iff, ReadM.failsWith_get_bind_iff,
    ReadM.failsWith_ite_iff, ReadM.failsWith_pure_iff, ReadM.failsWith_failHere_iff, and_false,
    false_or, faulty_documentEnd_iff, atEnd_iff, ne_eq]

/-- **What is wrong with an input that is not read.** It is empty or too large; or it begins as a
document does, up to a site where the wrong thing comes next. -/
theorem read_eq_error_iff (bounds : Bounds) (input : Bytes) (f : Fault) :
    read bounds input = .error f ↔ input = [] ∧ f = ⟨.emptyDocument, 0⟩ ∨
      bounds.maxInputSize < input.length ∧ input ≠ [] ∧ f = ⟨.inputTooLarge, 0⟩ ∨
      input.length ≤ bounds.maxInputSize ∧ input ≠ [] ∧
        Breaks .document bounds.maxDepth (Cursor.ofBytes input) f := by
  have hwhole := whole_failsWith_iff (n := bounds.maxDepth) (f := f) (c := Cursor.ofBytes input)
    (Nat.le_refl input.length)
  rw [← hwhole]
  simp only [read, List.length_eq_zero_iff]
  by_cases hempty : input = []
  · simp [hempty, eq_comm]
  · by_cases hsize : bounds.maxInputSize < input.length
    · simp [hempty, hsize, eq_comm]
    · simp only [hempty, hsize, if_false, false_and, false_or, Nat.le_of_not_lt hsize, true_and,
        ne_eq, not_false_eq_true, ReadM.FailsWith, EStateM.run]
      cases whole input.length bounds.maxDepth (Cursor.ofBytes input) <;> simp

theorem decodeWithin_eq_error_of_read {bounds : Bounds} {input : Bytes}
    (h : read bounds input = .error f) : decodeWithin bounds input = .error (f.inDocument input) := by
  rw [decodeWithin, h]

theorem decodeWithin_eq_error_of_breaks {bounds : Bounds} {input : Bytes}
    (hsize : input.length ≤ bounds.maxInputSize) (hne : input ≠ [])
    (h : Breaks .document bounds.maxDepth (Cursor.ofBytes input) f) :
    decodeWithin bounds input = .error (f.inDocument input) :=
  decodeWithin_eq_error_of_read ((read_eq_error_iff _ _ _).2 (.inr (.inr ⟨hsize, hne, h⟩)))

/-- Nothing goes wrong in a document that is read. -/
theorem not_breaks_of_read_eq_ok {bounds : Bounds} {input : Bytes}
    (h : read bounds input = .ok v) :
    ¬Breaks .document bounds.maxDepth (Cursor.ofBytes input) f := by
  intro hbreaks
  obtain ⟨hne, hsize, -⟩ := (read_eq_ok_iff _ _).1 h
  rw [(read_eq_error_iff _ _ f).2 (.inr (.inr ⟨hsize, hne, hbreaks⟩))] at h
  cases h

end JsonCodec.Document
