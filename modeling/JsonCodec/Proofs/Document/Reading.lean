/-
Reading a value: what `Document.value` takes is a value of the grammar behind blanks, and it takes
every such value that nothing goes on with.

Arrays and objects are read given a reader of what they hold, so each is dealt with once, and the
induction is on the levels. A turn of a loop takes a byte at least; that is why as many turns as
there are bytes are enough.
-/
import JsonCodec.Proofs.Document.Collector
import JsonCodec.Proofs.Document.Number
import JsonCodec.Proofs.Document.Text
import JsonCodec.Document

namespace JsonCodec.Document

open Ascii Grammar NumberLiteral

variable {c c' : Cursor} {n turns : Nat} {v : Value}

/-! ## Blanks -/

theorem isBlank_iff {b : UInt8} :
    isBlank b = true ↔ b = space ∨ b = tab ∨ b = lineFeed ∨ b = carriageReturn := by
  simp [isBlank, or_assoc]

theorem skipBlanks_eq_iff :
    c.skipBlanks = c' ↔ ∃ blanks, c.Passes blanks c' ∧ Blanks blanks ∧ c'.Stops isBlank := by
  constructor
  · rintro rfl
    exact ⟨_, Cursor.span_eq_iff.1 rfl⟩
  · intro ⟨blanks, h⟩
    rw [Cursor.skipBlanks, Cursor.span_eq_iff.2 h]

theorem skipBlanks_skipBlanks (c : Cursor) : c.skipBlanks.skipBlanks = c.skipBlanks := by
  obtain ⟨_, -, -, hs⟩ := skipBlanks_eq_iff.1 (rfl : c.skipBlanks = c.skipBlanks)
  exact skipBlanks_eq_iff.2 ⟨[], Cursor.passes_nil.2 rfl, List.forall_mem_nil _, hs⟩

theorem passes_skipBlanks (c : Cursor) :
    ∃ blanks, Blanks blanks ∧ c.Passes blanks c.skipBlanks := by
  obtain ⟨blanks, hp, hb, -⟩ := skipBlanks_eq_iff.1 (rfl : c.skipBlanks = c.skipBlanks)
  exact ⟨blanks, hb, hp⟩

/-- Blanks in front of a byte that is none. -/
theorem skipBlanks_of_passes {blanks : Bytes} {b : UInt8} (h : c.Passes blanks c')
    (hb : Blanks blanks) (hp : c'.peek = some b) (hn : isBlank b = false) : c.skipBlanks = c' :=
  skipBlanks_eq_iff.2 ⟨blanks, h, hb, Cursor.stops_of_peek hp hn⟩

/-- What follows a value goes on with no number: blanks, a bracket, a brace, a comma or the end. -/
theorem stops_of_blanks {blanks : Bytes} (h : c.Passes blanks c') (hb : Blanks blanks)
    (hs : c'.Stops isNumberByte) : c.Stops isNumberByte := by
  refine h.stops (fun b hmem => ?_) hs
  rcases isBlank_iff.1 (hb b (List.mem_of_mem_head? hmem)) with rfl | rfl | rfl | rfl <;> rfl

/-! ## Keys -/

theorem peek_of_text {literal : Bytes} {name : String} (h : Text literal name)
    (hp : c.Passes literal c') : c.peek = some quote := by
  obtain ⟨hchars⟩ := h
  exact hp.peek (List.cons_ne_nil _ _)

theorem key_eq_ok_iff {name : String} :
    key c = .ok name c' ↔ ∃ literal, Key literal name ∧ c.Passes (literal ++ [colon]) c' := by
  simp only [key, ReadM.skipBlanks_bind, ReadM.peek_bind]
  constructor
  · intro h
    by_cases hq : c.skipBlanks.peek = some quote
    · rw [if_pos hq] at h
      obtain ⟨text, m, hread, h⟩ := ReadM.bind_eq_ok.1 h
      simp only [ReadM.skipBlanks_bind, ReadM.peek_bind] at h
      by_cases hc : m.skipBlanks.peek = some colon
      · rw [if_pos hc] at h
        cases h
        obtain ⟨literal, hp, htext⟩ := (StringLiteral.read_eq_ok_iff hq).1 hread
        obtain ⟨before, hb, hpb⟩ := passes_skipBlanks c
        obtain ⟨after, ha, hpa⟩ := passes_skipBlanks m
        exact ⟨_, .mk hb htext ha,
          ((hpb.trans hp).trans hpa).trans (Cursor.passes_singleton.2 ⟨hc, rfl⟩)⟩
      · rw [if_neg hc] at h
        cases h
    · rw [if_neg hq] at h
      cases h
  · rintro ⟨_, @⟨before, literal, after, _, hb, htext, ha⟩, hp⟩
    obtain ⟨c₃, hp₃, hcolon⟩ := Cursor.passes_append.1 hp
    obtain ⟨c₂, hp₂, hpa⟩ := Cursor.passes_append.1 hp₃
    obtain ⟨c₁, hpb, hpt⟩ := Cursor.passes_append.1 hp₂
    obtain ⟨hc, rfl⟩ := Cursor.passes_singleton.1 hcolon
    have hq := peek_of_text htext hpt
    rw [skipBlanks_of_passes hpb hb hq rfl, if_pos hq,
      ReadM.bind_of_ok ((StringLiteral.read_eq_ok_iff hq).2 ⟨literal, hpt, htext⟩)]
    simp only [ReadM.skipBlanks_bind, ReadM.peek_bind]
    rw [skipBlanks_of_passes hpa ha hc rfl, if_pos hc]
    rfl

/-! ## Items and members -/

/-- If `bytes` are a number, it does not go on with what comes next. -/
def Ends (bytes : Bytes) (next : Option UInt8) : Prop :=
  ∀ literal : Number, literal.bytes = bytes → ∀ b ∈ next, (ofGrammar literal).goesOn b = false

theorem ends_of_stops (bytes : Bytes) (h : c.Stops isNumberByte) : Ends bytes c.peek :=
  fun _ _ => h.mono fun _ => isNumberByte_of_goesOn

/-- A reader takes the values of `n` levels and no others: a value that it takes stands behind
blanks, and it takes every such value that nothing goes on with, if no more than `turns` bytes are
left. -/
structure Reads (item : ReadM Value) (n turns : Nat) : Prop where
  sound : ∀ {c c' v}, item c = .ok v c' → ∃ before bytes, Blanks before ∧
    c.Passes (before ++ bytes) c' ∧ Denotes exponentSize n bytes v ∧ Ends bytes c'.peek
  complete : ∀ {c c' v before bytes}, c.rest.length ≤ turns → Blanks before →
    c.Passes (before ++ bytes) c' → Denotes exponentSize n bytes v → Ends bytes c'.peek →
    item c = .ok v c'
  blanks : ∀ c, item c.skipBlanks = item c

variable {item : ReadM Value}

theorem Reads.spaced_sound (h : Reads item n turns) (hi : item c = .ok v c') :
    ∃ bytes, Spaced exponentSize n bytes v ∧ c.Passes bytes c'.skipBlanks := by
  obtain ⟨before, bytes, hb, hp, hv, -⟩ := h.sound hi
  obtain ⟨after, ha, hpa⟩ := passes_skipBlanks c'
  exact ⟨_, .mk hb hv ha, hp.trans hpa⟩

/-- A value between blanks, with a byte behind it that is none and no number goes on with. -/
theorem Reads.spaced_complete (h : Reads item n turns) {bytes : Bytes} {b : UInt8}
    (hl : c.rest.length ≤ turns) (hv : Spaced exponentSize n bytes v) (hp : c.Passes bytes c')
    (hb : c'.peek = some b) (hblank : isBlank b = false) (hnum : isNumberByte b = false) :
    ∃ m, item c = .ok v m ∧ m.skipBlanks = c' := by
  obtain ⟨hbefore, hv, hafter⟩ := hv
  obtain ⟨m, hpv, hpa⟩ := Cursor.passes_append.1 hp
  have hs := stops_of_blanks hpa hafter (Cursor.stops_of_peek hb hnum)
  exact ⟨m, h.complete hl hbefore hpv hv (ends_of_stops _ hs),
    skipBlanks_of_passes hpa hafter hb hblank⟩

/-- How a turn over an item goes on. -/
theorem items_succ (item : ReadM Value) (turns : Nat) (done : Array Value) :
    items item (turns + 1) done c = .ok v c' ↔ ∃ w m, item c = .ok w m ∧
      (m.skipBlanks.peek = some comma ∧
          items item turns (done.push w) (m.skipBlanks.advance 1) = .ok v c' ∨
        m.skipBlanks.peek = some bracketClose ∧ v = .array (done.push w).toList ∧
          c' = m.skipBlanks.advance 1) := by
  rw [items, ReadM.bind_eq_ok]
  simp only [ReadM.skipBlanks_bind, ReadM.peek_bind]
  refine exists_congr fun w => exists_congr fun m => and_congr_right fun _ => ?_
  by_cases hc : m.skipBlanks.peek = some comma
  · have hne : ¬(some comma = some bracketClose) := by decide
    rw [if_pos hc, ReadM.advance_bind, hc]
    simp only [true_and, hne, false_and, or_false]
  · rw [if_neg hc]
    simp only [hc, false_and, false_or]
    by_cases hb : m.skipBlanks.peek = some bracketClose
    · rw [if_pos hb, ReadM.advance_bind, ReadM.pure_apply]
      simp [hb, eq_comm]
    · rw [if_neg hb]
      simp [hb]

theorem items_sound (h : Reads item n turns) :
    ∀ (t : Nat) {c : Cursor} {done : Array Value}, items item t done c = .ok v c' →
      ∃ inside vs, Items exponentSize n inside vs ∧ c.Passes (inside ++ [bracketClose]) c' ∧
        v = .array (done.toList ++ vs)
  | 0, _, _, hi => nomatch hi
  | t + 1, c, done, hi => by
    obtain ⟨w, m, hw, hm⟩ := (items_succ item t done).1 hi
    obtain ⟨bytes, hs, hp⟩ := h.spaced_sound hw
    rcases hm with ⟨hc, hi⟩ | ⟨hb, rfl, rfl⟩
    · obtain ⟨inside, vs, hvs, hp', rfl⟩ := items_sound h t hi
      refine ⟨_, _, .more hs hvs, ?_, by simp⟩
      have := (hp.trans (Cursor.passes_singleton.2 ⟨hc, rfl⟩)).trans hp'
      simpa using this
    · exact ⟨bytes, [w], .one hs, hp.trans (Cursor.passes_singleton.2 ⟨hb, rfl⟩), by simp⟩

theorem items_complete (h : Reads item n turns) {vs : List Value} {t : Nat} {done : Array Value}
    {inside : Bytes} (hl : c.rest.length ≤ turns) (ht : c.rest.length ≤ t)
    (hvs : Items exponentSize n inside vs) (hp : c.Passes (inside ++ [bracketClose]) c') :
    items item t done c = .ok (.array (done.toList ++ vs)) c' := by
  induction vs generalizing t c done inside with
  | nil => cases hvs
  | cons v vs ih =>
    cases hvs with
    | one hv =>
      obtain ⟨m, hpv, hclose⟩ := Cursor.passes_append.1 hp
      obtain ⟨hb, rfl⟩ := Cursor.passes_singleton.1 hclose
      obtain ⟨m', hi, rfl⟩ := h.spaced_complete hl hv hpv hb rfl rfl
      have hlen := hp.length
      rw [List.length_append, List.length_singleton] at hlen
      obtain ⟨t, rfl⟩ : ∃ k, t = k + 1 := ⟨t - 1, by omega⟩
      exact (items_succ item t done).2 ⟨v, m', hi, .inr ⟨hb, by simp, rfl⟩⟩
    | @more _ bytes rest _ _ hv hr =>
      have hp₀ : c.Passes (bytes ++ ([comma] ++ (rest ++ [bracketClose]))) c' := by simpa using hp
      obtain ⟨m, hpv, hp₁⟩ := Cursor.passes_append.1 hp₀
      obtain ⟨m₁, hc, hp₂⟩ := Cursor.passes_append.1 hp₁
      obtain ⟨hcomma, rfl⟩ := Cursor.passes_singleton.1 hc
      have hlen := hpv.length
      have hlen₁ := hc.length
      rw [List.length_singleton] at hlen₁
      obtain ⟨m', hi, rfl⟩ := h.spaced_complete hl hv hpv hcomma rfl rfl
      obtain ⟨t, rfl⟩ : ∃ k, t = k + 1 := ⟨t - 1, by omega⟩
      have hrest : items item t (done.push v) (m'.skipBlanks.advance 1) =
          .ok (.array ((done.push v).toList ++ vs)) c' := ih (by omega) (by omega) hr hp₂
      rw [Array.toList_push, List.append_assoc] at hrest
      exact (items_succ item t done).2 ⟨v, m', hi, .inl ⟨hcomma, hrest⟩⟩

/-- How a turn over a member goes on. -/
theorem members_succ (item : ReadM Value) (turns : Nat) (done : Collector) :
    members item (turns + 1) done c = .ok v c' ↔ ∃ name k w m, key c = .ok name k ∧
      item k = .ok w m ∧
      (m.skipBlanks.peek = some comma ∧
          members item turns (done.insert name w) (m.skipBlanks.advance 1) = .ok v c' ∨
        m.skipBlanks.peek = some braceClose ∧ v = .object (done.insert name w).toMembers ∧
          c' = m.skipBlanks.advance 1) := by
  rw [members, ReadM.bind_eq_ok]
  refine exists_congr fun name => exists_congr fun k => ?_
  rw [ReadM.bind_eq_ok, ← exists_and_left]
  simp only [ReadM.skipBlanks_bind, ReadM.peek_bind, ← exists_and_left]
  refine exists_congr fun w => exists_congr fun m => and_congr_right fun _ =>
    and_congr_right fun _ => ?_
  by_cases hc : m.skipBlanks.peek = some comma
  · have hne : ¬(some comma = some braceClose) := by decide
    rw [if_pos hc, ReadM.advance_bind, hc]
    simp only [true_and, hne, false_and, or_false]
  · rw [if_neg hc]
    simp only [hc, false_and, false_or]
    by_cases hb : m.skipBlanks.peek = some braceClose
    · rw [if_pos hb, ReadM.advance_bind, ReadM.pure_apply]
      simp [hb, eq_comm]
    · rw [if_neg hb]
      simp [hb]

theorem members_sound (h : Reads item n turns) :
    ∀ (t : Nat) {c : Cursor} {done : Collector}, members item t done c = .ok v c' →
      ∃ inside ms, Fields exponentSize n inside ms ∧ c.Passes (inside ++ [braceClose]) c' ∧
        v = .object (done.insertAll ms).toMembers
  | 0, _, _, hi => nomatch hi
  | t + 1, c, done, hi => by
    obtain ⟨name, k, w, m, hk, hw, hm⟩ := (members_succ item t done).1 hi
    obtain ⟨key, hkey, hpk⟩ := key_eq_ok_iff.1 hk
    obtain ⟨bytes, hs, hp⟩ := h.spaced_sound hw
    rcases hm with ⟨hc, hi⟩ | ⟨hb, rfl, rfl⟩
    · obtain ⟨inside, ms, hms, hp', rfl⟩ := members_sound h t hi
      refine ⟨_, _, .more hkey hs hms, ?_, rfl⟩
      have := ((hpk.trans hp).trans (Cursor.passes_singleton.2 ⟨hc, rfl⟩)).trans hp'
      simpa using this
    · refine ⟨_, _, .one hkey hs, ?_, rfl⟩
      have := (hpk.trans hp).trans (Cursor.passes_singleton.2 ⟨hb, rfl⟩)
      simpa using this

theorem members_complete (h : Reads item n turns) {ms : List (String × Value)} {t : Nat}
    {done : Collector} {inside : Bytes} (hl : c.rest.length ≤ turns) (ht : c.rest.length ≤ t)
    (hms : Fields exponentSize n inside ms) (hp : c.Passes (inside ++ [braceClose]) c') :
    members item t done c = .ok (.object (done.insertAll ms).toMembers) c' := by
  induction ms generalizing t c done inside with
  | nil => cases hms
  | cons member ms ih =>
    cases hms with
    | @one _ key bytes name v hk hv =>
      have hp₀ : c.Passes (key ++ [colon] ++ (bytes ++ [braceClose])) c' := by simpa using hp
      obtain ⟨k, hpk, hp₁⟩ := Cursor.passes_append.1 hp₀
      obtain ⟨m, hpv, hclose⟩ := Cursor.passes_append.1 hp₁
      obtain ⟨hb, rfl⟩ := Cursor.passes_singleton.1 hclose
      have hlen := hpk.length
      rw [List.length_append, List.length_singleton] at hlen
      obtain ⟨m', hi, rfl⟩ := h.spaced_complete (by omega) hv hpv hb rfl rfl
      obtain ⟨t, rfl⟩ : ∃ k, t = k + 1 := ⟨t - 1, by omega⟩
      exact (members_succ item t done).2
        ⟨name, k, v, m', key_eq_ok_iff.2 ⟨key, hk, hpk⟩, hi, .inr ⟨hb, rfl, rfl⟩⟩
    | @more _ key bytes rest name v _ hk hv hr =>
      have hp₀ : c.Passes (key ++ [colon] ++ (bytes ++ ([comma] ++ (rest ++ [braceClose])))) c' := by
        simpa using hp
      obtain ⟨k, hpk, hp₁⟩ := Cursor.passes_append.1 hp₀
      obtain ⟨m, hpv, hp₂⟩ := Cursor.passes_append.1 hp₁
      obtain ⟨m₁, hc, hp₃⟩ := Cursor.passes_append.1 hp₂
      obtain ⟨hcomma, rfl⟩ := Cursor.passes_singleton.1 hc
      have hlen := hpk.length
      have hlen₁ := hpv.length
      have hlen₂ := hc.length
      rw [List.length_append, List.length_singleton] at hlen
      rw [List.length_singleton] at hlen₂
      obtain ⟨m', hi, rfl⟩ := h.spaced_complete (by omega) hv hpv hcomma rfl rfl
      obtain ⟨t, rfl⟩ : ∃ k, t = k + 1 := ⟨t - 1, by omega⟩
      exact (members_succ item t done).2 ⟨name, k, v, m', key_eq_ok_iff.2 ⟨key, hk, hpk⟩, hi,
        .inl ⟨hcomma, ih (by omega) (by omega) hr hp₃⟩⟩

theorem items_skipBlanks (h : Reads item n turns) (t : Nat) (done : Array Value) :
    items item t done c.skipBlanks = .ok v c' ↔ items item t done c = .ok v c' := by
  cases t with
  | zero => constructor <;> exact fun h => nomatch h
  | succ t => rw [items_succ, items_succ, h.blanks]

theorem key_skipBlanks (c : Cursor) : key c.skipBlanks = key c := by
  simp only [key, ReadM.skipBlanks_bind, skipBlanks_skipBlanks]

theorem members_skipBlanks (t : Nat) (done : Collector) :
    members item t done c.skipBlanks = .ok v c' ↔ members item t done c = .ok v c' := by
  cases t with
  | zero => constructor <;> exact fun h => nomatch h
  | succ t => rw [members_succ, members_succ, key_skipBlanks]

/-! ## Containers -/

/-- The bytes that a value starts with. -/
def isValueByte (b : UInt8) : Bool :=
  b == braceOpen || b == bracketOpen || b == quote || b == minus || isDigit b || b == letterT ||
    b == letterF || b == letterN

theorem isDigit_or_of_number (literal : Number) :
    ∃ b, literal.bytes.head? = some b ∧ (b = minus ∨ isDigit b = true) := by
  obtain ⟨hne, hall, -⟩ := Digits.isCanonical_iff.1 literal.whole_ok
  obtain ⟨b, rest, hb⟩ := List.exists_cons_of_ne_nil hne
  by_cases hn : literal.negative = true
  · exact ⟨minus, by simp [Number.bytes, hn], .inl rfl⟩
  · exact ⟨b, by simp [Number.bytes, hn, hb], .inr (hall b (by simp [hb]))⟩

theorem isValueByte_of_denotes {bytes : Bytes} (h : Denotes exponentSize n bytes v) :
    ∃ b, bytes.head? = some b ∧ isValueByte b = true := by
  cases h with
  | number literal =>
    obtain ⟨b, hb, rfl | hd⟩ := isDigit_or_of_number literal
    · exact ⟨minus, hb, rfl⟩
    · exact ⟨b, hb, by simp [isValueByte, hd]⟩
  | text h =>
    obtain ⟨-⟩ := h
    exact ⟨quote, rfl, rfl⟩
  | null | true | false | emptyArray | array | emptyObject | object => exact ⟨_, rfl, rfl⟩

theorem isBlank_of_isValueByte {b : UInt8} (h : isValueByte b = true) : isBlank b = false := by
  refine Bool.eq_false_iff.2 fun hb => ?_
  rcases isBlank_iff.1 hb with rfl | rfl | rfl | rfl <;> cases h

/-- A value between blanks: behind the blanks comes the first byte of the value. -/
theorem peek_of_spaced {bytes : Bytes} (h : Spaced exponentSize n bytes v) (hp : c.Passes bytes c') :
    ∃ b, c.skipBlanks.peek = some b ∧ isValueByte b = true := by
  obtain ⟨hbefore, hv, -⟩ := h
  obtain ⟨m, hp, -⟩ := Cursor.passes_append.1 hp
  obtain ⟨m', hpb, hpv⟩ := Cursor.passes_append.1 hp
  obtain ⟨b, hb, hvalue⟩ := isValueByte_of_denotes hv
  have hpeek : m'.peek = some b := by
    rw [hpv.peek (fun hnil => by simp [hnil] at hb), hb]
  refine ⟨b, ?_, hvalue⟩
  rw [skipBlanks_of_passes hpb hbefore hpeek (isBlank_of_isValueByte hvalue), hpeek]

theorem array_eq (item : ReadM Value) (turns : Nat) (c : Cursor) :
    array item turns c =
      if (c.advance 1).skipBlanks.peek = some bracketClose then
        .ok (.array []) ((c.advance 1).skipBlanks.advance 1)
      else items item turns #[] (c.advance 1).skipBlanks := by
  simp only [array, ReadM.advance_bind, ReadM.skipBlanks_bind, ReadM.peek_bind]
  split <;> rfl

theorem object_eq (item : ReadM Value) (turns : Nat) (c : Cursor) :
    object item turns c =
      if (c.advance 1).skipBlanks.peek = some braceClose then
        .ok (.object []) ((c.advance 1).skipBlanks.advance 1)
      else members item turns {} (c.advance 1).skipBlanks := by
  simp only [object, ReadM.advance_bind, ReadM.skipBlanks_bind, ReadM.peek_bind]
  split <;> rfl

theorem array_sound (h : Reads item n turns) {t : Nat} (hb : c.peek = some bracketOpen)
    (ha : array item t c = .ok v c') :
    ∃ bytes, c.Passes bytes c' ∧ Denotes exponentSize (n + 1) bytes v := by
  have hopen : c.Passes [bracketOpen] (c.advance 1) := Cursor.passes_singleton.2 ⟨hb, rfl⟩
  rw [array_eq] at ha
  split at ha
  · next hclose =>
    cases ha
    obtain ⟨blanks, hblanks, hp⟩ := passes_skipBlanks (c.advance 1)
    exact ⟨_, hopen.trans (hp.trans (Cursor.passes_singleton.2 ⟨hclose, rfl⟩)), .emptyArray hblanks⟩
  · obtain ⟨inside, vs, hvs, hp, rfl⟩ := items_sound h t ((items_skipBlanks h t #[]).1 ha)
    exact ⟨_, hopen.trans hp, .array hvs⟩

theorem array_complete_empty {t : Nat} {blanks : Bytes} (hb : Blanks blanks)
    (hp : c.Passes (bracketOpen :: (blanks ++ [bracketClose])) c') :
    array item t c = .ok (.array []) c' := by
  have hp₀ : c.Passes ([bracketOpen] ++ (blanks ++ [bracketClose])) c' := hp
  obtain ⟨m, ho, hp₁⟩ := Cursor.passes_append.1 hp₀
  obtain ⟨m', hpb, hc⟩ := Cursor.passes_append.1 hp₁
  obtain ⟨-, rfl⟩ := Cursor.passes_singleton.1 ho
  obtain ⟨hclose, rfl⟩ := Cursor.passes_singleton.1 hc
  rw [array_eq, skipBlanks_of_passes hpb hb hclose rfl, if_pos hclose]

theorem array_complete (h : Reads item n turns) {t : Nat} {inside : Bytes} {vs : List Value}
    (hl : c.rest.length ≤ turns) (ht : c.rest.length ≤ t) (hvs : Items exponentSize n inside vs)
    (hp : c.Passes (bracketOpen :: (inside ++ [bracketClose])) c') :
    array item t c = .ok (.array vs) c' := by
  have hp₀ : c.Passes ([bracketOpen] ++ (inside ++ [bracketClose])) c' := hp
  obtain ⟨m, ho, hp₁⟩ := Cursor.passes_append.1 hp₀
  have hlen := ho.length
  obtain ⟨-, rfl⟩ := Cursor.passes_singleton.1 ho
  have hne : (c.advance 1).skipBlanks.peek ≠ some bracketClose := by
    obtain ⟨b, hb, hvalue⟩ : ∃ b, (c.advance 1).skipBlanks.peek = some b ∧ isValueByte b = true := by
      obtain ⟨m, hp₂, -⟩ := Cursor.passes_append.1 hp₁
      cases hvs with
      | one hv => exact peek_of_spaced hv hp₂
      | more hv _ =>
        obtain ⟨m', hp₃, -⟩ := Cursor.passes_append.1 hp₂
        exact peek_of_spaced hv hp₃
    rw [hb]
    rintro ⟨⟩
    cases hvalue
  rw [array_eq, if_neg hne]
  exact (items_skipBlanks h t #[]).2 (items_complete h (by omega) (by omega) hvs hp₁)

/-- What has been collected is the object of the members. -/
theorem object_insertAll (ms : List (String × Value)) :
    Value.object (Collector.insertAll {} ms).toMembers = objectOf ms :=
  congrArg Value.object (Collector.toMembers_insertAll_empty ms)

theorem object_sound (h : Reads item n turns) {t : Nat} (hb : c.peek = some braceOpen)
    (ho : object item t c = .ok v c') :
    ∃ bytes, c.Passes bytes c' ∧ Denotes exponentSize (n + 1) bytes v := by
  have hopen : c.Passes [braceOpen] (c.advance 1) := Cursor.passes_singleton.2 ⟨hb, rfl⟩
  rw [object_eq] at ho
  split at ho
  · next hclose =>
    cases ho
    obtain ⟨blanks, hblanks, hp⟩ := passes_skipBlanks (c.advance 1)
    exact ⟨_, hopen.trans (hp.trans (Cursor.passes_singleton.2 ⟨hclose, rfl⟩)), .emptyObject hblanks⟩
  · obtain ⟨inside, ms, hms, hp, rfl⟩ := members_sound h t ((members_skipBlanks t {}).1 ho)
    rw [object_insertAll]
    exact ⟨_, hopen.trans hp, .object hms⟩

theorem object_complete_empty {t : Nat} {blanks : Bytes} (hb : Blanks blanks)
    (hp : c.Passes (braceOpen :: (blanks ++ [braceClose])) c') :
    object item t c = .ok (.object []) c' := by
  have hp₀ : c.Passes ([braceOpen] ++ (blanks ++ [braceClose])) c' := hp
  obtain ⟨m, ho, hp₁⟩ := Cursor.passes_append.1 hp₀
  obtain ⟨m', hpb, hc⟩ := Cursor.passes_append.1 hp₁
  obtain ⟨-, rfl⟩ := Cursor.passes_singleton.1 ho
  obtain ⟨hclose, rfl⟩ := Cursor.passes_singleton.1 hc
  rw [object_eq, skipBlanks_of_passes hpb hb hclose rfl, if_pos hclose]

/-- A key: behind the blanks comes its quote. -/
theorem peek_of_key {bytes : Bytes} {name : String} (h : Key bytes name) (hp : c.Passes bytes c') :
    c.skipBlanks.peek = some quote := by
  obtain ⟨hb, htext, -⟩ := h
  obtain ⟨m, hp₁, -⟩ := Cursor.passes_append.1 hp
  obtain ⟨m', hpb, hpt⟩ := Cursor.passes_append.1 hp₁
  have hq := peek_of_text htext hpt
  rw [skipBlanks_of_passes hpb hb hq rfl, hq]

theorem object_complete (h : Reads item n turns) {t : Nat} {inside : Bytes}
    {ms : List (String × Value)} (hl : c.rest.length ≤ turns) (ht : c.rest.length ≤ t)
    (hms : Fields exponentSize n inside ms)
    (hp : c.Passes (braceOpen :: (inside ++ [braceClose])) c') :
    object item t c = .ok (objectOf ms) c' := by
  have hp₀ : c.Passes ([braceOpen] ++ (inside ++ [braceClose])) c' := hp
  obtain ⟨m, ho, hp₁⟩ := Cursor.passes_append.1 hp₀
  have hlen := ho.length
  obtain ⟨-, rfl⟩ := Cursor.passes_singleton.1 ho
  have hq : (c.advance 1).skipBlanks.peek = some quote := by
    obtain ⟨m, hp₂, -⟩ := Cursor.passes_append.1 hp₁
    cases hms with
    | one hk _ | more hk _ _ =>
      obtain ⟨m', hp₃, -⟩ := Cursor.passes_append.1 hp₂
      exact peek_of_key hk hp₃
  rw [object_eq, if_neg (by rw [hq]; decide), ← object_insertAll]
  exact (members_skipBlanks t {}).2 (members_complete h (by omega) (by omega) hms hp₁)

/-! ## Values -/

/-- Reads an array of `n` levels. -/
def arrayAt (turns : Nat) : (n : Nat) → ReadM Value
  | 0 => ReadM.failHere .recursionLimit
  | n + 1 => array (value turns n) turns

/-- Reads an object of `n` levels. -/
def objectAt (turns : Nat) : (n : Nat) → ReadM Value
  | 0 => ReadM.failHere .recursionLimit
  | n + 1 => object (value turns n) turns

/-- The first byte behind the blanks tells how a value is read. -/
theorem value_eq (turns n : Nat) (c : Cursor) :
    value turns n c =
      match c.skipBlanks.peek with
      | none => ReadM.unexpected .expectedValue c.skipBlanks
      | some b =>
        if b = braceOpen then objectAt turns n c.skipBlanks
        else if b = bracketOpen then arrayAt turns n c.skipBlanks
        else if b = quote then
          (StringLiteral.read >>= fun text => pure (Value.str text)) c.skipBlanks
        else if b = minus ∨ isDigit b then NumberLiteral.read c.skipBlanks
        else if b = letterT then word (Utf8.encode "true") (.bool true) c.skipBlanks
        else if b = letterF then word (Utf8.encode "false") (.bool false) c.skipBlanks
        else if b = letterN then word (Utf8.encode "null") .null c.skipBlanks
        else ReadM.unexpected .expectedValue c.skipBlanks := by
  have h : value turns n c = valueWith (arrayAt turns n) (objectAt turns n) c := by cases n <;> rfl
  rw [h]
  simp only [valueWith, ReadM.skipBlanks_bind, ReadM.peek_bind]
  cases c.skipBlanks.peek with
  | none => rfl
  | some b =>
    simp only
    repeat' split
    all_goals rfl

theorem word_eq_ok_iff {text : Bytes} {value : Value} :
    word text value c = .ok v c' ↔ c.Passes text c' ∧ v = value := by
  have heat : c.eat? text = some c' ↔ c.Passes text c' := by
    obtain ⟨pos, rest⟩ := c
    obtain ⟨pos', rest'⟩ := c'
    simp only [Cursor.eat?, Cursor.Passes]
    constructor
    · intro h
      split at h
      · next hp =>
        obtain ⟨after, rfl⟩ := List.isPrefixOf_iff_prefix.1 hp
        cases h
        exact ⟨by rw [List.drop_left], rfl⟩
      · cases h
    · rintro ⟨rfl, rfl⟩
      rw [if_pos (List.isPrefixOf_iff_prefix.2 ⟨rest', rfl⟩), List.drop_left]
  rw [← heat, word]
  cases c.eat? text with
  | none =>
    simp only [reduceCtorEq, false_and, iff_false]
    split <;> simp only [reduceCtorEq, not_false_eq_true]
  | some m =>
    simp only [EStateM.Result.ok.injEq, Option.some.injEq]
    constructor
    · rintro ⟨rfl, rfl⟩
      exact ⟨rfl, rfl⟩
    · rintro ⟨rfl, rfl⟩
      exact ⟨rfl, rfl⟩

/-- What does not begin as a number is none. -/
theorem ends_of_passes {bytes : Bytes} {b : UInt8} {next : Option UInt8} (hp : c.Passes bytes c')
    (hb : c.peek = some b) (hn : ¬(b = minus ∨ isDigit b = true)) : Ends bytes next := by
  rintro literal rfl
  obtain ⟨x, hx, hnumber⟩ := isDigit_or_of_number literal
  rw [← hp.peek (fun hnil => by simp [hnil] at hx), hb] at hx
  cases hx
  exact absurd hnumber hn

/-- The value at the first byte of it. -/
theorem value_sound_here (ih : ∀ k, n = k + 1 → Reads (value turns k) k turns)
    (h : value turns n c = .ok v c') :
    ∃ bytes, c.skipBlanks.Passes bytes c' ∧ Denotes exponentSize n bytes v ∧ Ends bytes c'.peek := by
  rw [value_eq] at h
  cases hb : c.skipBlanks.peek with
  | none => rw [hb] at h; cases h
  | some b =>
    simp only [hb] at h
    by_cases hbrace : b = braceOpen
    · rw [if_pos hbrace] at h
      cases n with
      | zero => cases h
      | succ k =>
        obtain ⟨bytes, hp, hv⟩ := object_sound (ih k rfl) (hbrace ▸ hb) h
        exact ⟨bytes, hp, hv, ends_of_passes hp hb (by rw [hbrace]; decide)⟩
    rw [if_neg hbrace] at h
    by_cases hbracket : b = bracketOpen
    · rw [if_pos hbracket] at h
      cases n with
      | zero => cases h
      | succ k =>
        obtain ⟨bytes, hp, hv⟩ := array_sound (ih k rfl) (hbracket ▸ hb) h
        exact ⟨bytes, hp, hv, ends_of_passes hp hb (by rw [hbracket]; decide)⟩
    rw [if_neg hbracket] at h
    by_cases hquote : b = quote
    · rw [if_pos hquote] at h
      obtain ⟨text, m, ht, hm⟩ := ReadM.bind_eq_ok.1 h
      cases hm
      obtain ⟨literal, hp, htext⟩ := (StringLiteral.read_eq_ok_iff (hquote ▸ hb)).1 ht
      exact ⟨literal, hp, .text htext, ends_of_passes hp hb (by rw [hquote]; decide)⟩
    rw [if_neg hquote] at h
    by_cases hnumber : b = minus ∨ isDigit b = true
    · rw [if_pos hnumber] at h
      obtain ⟨literal, hp, hv, hs⟩ := NumberLiteral.read_eq_ok_iff.1 h
      refine ⟨_, hp, .number literal hv, fun other ho => ?_⟩
      rw [ofGrammar_congr ho]
      exact hs
    rw [if_neg hnumber] at h
    split at h
    · obtain ⟨hp, rfl⟩ := word_eq_ok_iff.1 h
      exact ⟨_, hp, .true, ends_of_passes hp hb hnumber⟩
    split at h
    · obtain ⟨hp, rfl⟩ := word_eq_ok_iff.1 h
      exact ⟨_, hp, .false, ends_of_passes hp hb hnumber⟩
    split at h
    · obtain ⟨hp, rfl⟩ := word_eq_ok_iff.1 h
      exact ⟨_, hp, .null, ends_of_passes hp hb hnumber⟩
    · cases h

theorem value_complete_here (ih : ∀ k, n = k + 1 → Reads (value turns k) k turns) {m : Cursor}
    {bytes : Bytes} (hm : c.skipBlanks = m) (hl : m.rest.length ≤ turns) (hp : m.Passes bytes c')
    (hv : Denotes exponentSize n bytes v) (he : Ends bytes c'.peek) :
    value turns n c = .ok v c' := by
  rw [value_eq, hm]
  cases hv with
  | null =>
    rw [hp.peek (by decide)]
    exact word_eq_ok_iff.2 ⟨hp, rfl⟩
  | true =>
    rw [hp.peek (by decide)]
    exact word_eq_ok_iff.2 ⟨hp, rfl⟩
  | false =>
    rw [hp.peek (by decide)]
    exact word_eq_ok_iff.2 ⟨hp, rfl⟩
  | number literal hv =>
    obtain ⟨b, hb, hnumber⟩ := isDigit_or_of_number literal
    rw [hp.peek (fun hnil => by simp [hnil] at hb), hb]
    have hbrace : b ≠ braceOpen := by rintro rfl; rcases hnumber with h | h <;> cases h
    have hbracket : b ≠ bracketOpen := by rintro rfl; rcases hnumber with h | h <;> cases h
    have hquote : b ≠ quote := by rintro rfl; rcases hnumber with h | h <;> cases h
    simp only [if_neg hbrace, if_neg hbracket, if_neg hquote, if_pos hnumber]
    exact NumberLiteral.read_eq_ok_iff.2 ⟨literal, hp, hv, he literal rfl⟩
  | text htext =>
    have hq := peek_of_text htext hp
    rw [hq]
    exact ReadM.bind_of_ok ((StringLiteral.read_eq_ok_iff hq).2 ⟨bytes, hp, htext⟩)
  | emptyArray hb =>
    rw [hp.peek (List.cons_ne_nil _ _)]
    exact array_complete_empty hb hp
  | @array k inside vs hvs =>
    rw [hp.peek (List.cons_ne_nil _ _)]
    exact array_complete (ih k rfl) hl hl hvs hp
  | emptyObject hb =>
    rw [hp.peek (List.cons_ne_nil _ _)]
    exact object_complete_empty hb hp
  | @object k inside ms hms =>
    rw [hp.peek (List.cons_ne_nil _ _)]
    exact object_complete (ih k rfl) hl hl hms hp

theorem reads_of_reads (ih : ∀ k, n = k + 1 → Reads (value turns k) k turns) :
    Reads (value turns n) n turns where
  sound h := by
    obtain ⟨bytes, hp, hv, he⟩ := value_sound_here ih h
    obtain ⟨before, hb, hpb⟩ := passes_skipBlanks _
    exact ⟨before, bytes, hb, hpb.trans hp, hv, he⟩
  complete hl hb hp hv he := by
    obtain ⟨m, hpb, hpv⟩ := Cursor.passes_append.1 hp
    obtain ⟨b, hhead, hvalue⟩ := isValueByte_of_denotes hv
    have hpeek := hpv.peek fun hnil => by simp [hnil] at hhead
    rw [hhead] at hpeek
    have hlen := hpb.length
    exact value_complete_here ih
      (skipBlanks_of_passes hpb hb hpeek (isBlank_of_isValueByte hvalue)) (by omega) hpv hv he
  blanks c := by rw [value_eq, value_eq, skipBlanks_skipBlanks]

/-- **Reading takes the values of the grammar and no others.** -/
theorem reads_value (turns : Nat) : ∀ n, Reads (value turns n) n turns
  | 0 => reads_of_reads fun _ h => nomatch h
  | n + 1 => reads_of_reads fun k h => by
    cases h
    exact reads_value turns n

/-! ## Documents -/

theorem atEnd_iff : c.atEnd = true ↔ c.rest = [] := List.isEmpty_iff

/-- A document is a value between blanks. -/
theorem exists_whole_iff (hl : c.rest.length ≤ turns) :
    (∃ c', whole turns n c = .ok v c') ↔ Spaced exponentSize n c.rest v := by
  have hreads := reads_value turns n
  constructor
  · intro ⟨c', h⟩
    obtain ⟨w, m, hw, h⟩ := ReadM.bind_eq_ok.1 h
    obtain ⟨bytes, hv, hp⟩ := hreads.spaced_sound hw
    by_cases hend : m.skipBlanks.atEnd = true
    · have h : (if m.skipBlanks.atEnd then pure w else ReadM.failHere .trailingCharacters : ReadM Value)
          m.skipBlanks = .ok v c' := h
      rw [if_pos hend] at h
      cases h
      rw [hp.1, atEnd_iff.1 hend, List.append_nil]
      exact hv
    · have h : (if m.skipBlanks.atEnd then pure w else ReadM.failHere .trailingCharacters : ReadM Value)
          m.skipBlanks = .ok v c' := h
      rw [if_neg hend] at h
      cases h
  · intro h
    generalize hc : c.rest = rest at h
    obtain ⟨hbefore, hv, hafter⟩ := h
    next before bytes after =>
    let behind : Cursor := ⟨c.pos + (before ++ bytes ++ after).length, []⟩
    have hp : c.Passes (before ++ bytes ++ after) behind := ⟨by rw [hc, List.append_nil], rfl⟩
    obtain ⟨m, hpv, hpa⟩ := Cursor.passes_append.1 hp
    have hstops (p : UInt8 → Bool) : behind.Stops p := fun _ hb => nomatch hb
    have hread := hreads.complete hl hbefore hpv hv
      (ends_of_stops _ (stops_of_blanks hpa hafter (hstops _)))
    have hskip : m.skipBlanks = behind := skipBlanks_eq_iff.2 ⟨after, hpa, hafter, hstops _⟩
    refine ⟨behind, ?_⟩
    rw [whole, ReadM.bind_of_ok hread, ReadM.skipBlanks_bind, hskip]
    rfl

/-- A document is read just if it is within the bounds and has a value in the grammar. -/
theorem read_eq_ok_iff (bounds : Bounds) (input : Bytes) :
    read bounds input = .ok v ↔ input ≠ [] ∧ input.length ≤ bounds.maxInputSize ∧
      Spaced exponentSize bounds.maxDepth input v := by
  have hwhole := exists_whole_iff (n := bounds.maxDepth) (v := v) (c := Cursor.ofBytes input)
    (Nat.le_refl input.length)
  have hcursor : (Cursor.ofBytes input).rest = input := rfl
  rw [hcursor] at hwhole
  simp only [read]
  rw [← List.length_pos_iff, Nat.pos_iff_ne_zero, ← hwhole]
  split
  · next h => simp [h]
  · next h =>
    split
    · next hsize =>
      simp only [reduceCtorEq, false_iff]
      rintro ⟨-, hle, -⟩
      omega
    · next hsize =>
      have hle := Nat.le_of_not_lt hsize
      simp only [h, hle, not_false_eq_true, true_and, ne_eq]
      rw [EStateM.run]
      cases whole input.length bounds.maxDepth (Cursor.ofBytes input) with
      | ok w m => simp
      | error fault m => simp

theorem decodeWithin_eq_ok_iff (bounds : Bounds) (input : Bytes) :
    decodeWithin bounds input = .ok v ↔ read bounds input = .ok v := by
  rw [decodeWithin]
  cases read bounds input with
  | ok w => simp
  | error fault => simp

end JsonCodec.Document
