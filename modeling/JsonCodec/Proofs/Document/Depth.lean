/-
What the limit of depth does to a reading, and nothing else does: a document of the grammar is read
just if it nests no deeper, and otherwise refused at the first bracket too many; and any input is
read the same under a higher limit, or has its first bracket too many in front of all else that is
wrong with it (`decodeWithin_depth`).

The site that a reader comes to does not depend on the limit, only how many levels are left there.
-/
import JsonCodec.Proofs.Document.Unfinished
import JsonCodec.Proofs.Nesting

namespace JsonCodec.Document

open Ascii Grammar NumberLiteral Place

variable {c : Cursor} {f g : Fault} {n m k levels : Nat} {bytes : Bytes} {part : Part} {site : Site}
  {next : Option UInt8} {v : Value}

/-! ## Levels at a site -/

theorem Finished.closes (h : Finished next n bytes v) : Closes n bytes := by
  cases h with
  | mk hb h ha _ => exact closes_spaced (.mk hb h ha)

theorem Finished.of_deepest (h : Finished next n bytes v) (hd : (outside k).deepest bytes ≤ k + m) :
    Finished next m bytes v := by
  cases h with
  | mk hb h ha he =>
    rw [List.append_assoc, (isFlat_blanks hb).deepest_append,
      (closes_denotes h).deepest_append_le_iff] at hd
    exact .mk hb (denotes_of_deepest h hd.1) ha he

/-- Bytes that leave so many brackets open as levels are taken, with no more than `n` open at
once. -/
structure Leaves (n levels : Nat) (bytes : Bytes) : Prop where
  le : levels ≤ n
  run_eq : ∀ k, (outside k).run bytes = outside (k + (n - levels))
  deepest_le : ∀ k, (outside k).deepest bytes ≤ k + n

theorem leaves_of_closes (h : Closes n bytes) : Leaves n n bytes where
  le := Nat.le_refl n
  run_eq k := by rw [h.run_eq, Nat.sub_self, Nat.add_zero]
  deepest_le := h.deepest_le

theorem leaves_of_isFlat (h : ∀ k, IsFlat (outside k) bytes) : Leaves n n bytes :=
  leaves_of_closes (closes_of_isFlat h)

theorem Leaves.append {front : Bytes} (hf : Closes n front) (h : Leaves n levels bytes) :
    Leaves n levels (front ++ bytes) where
  le := h.le
  run_eq k := by rw [run_append, hf.run_eq, h.run_eq]
  deepest_le k := hf.deepest_append_le_iff.2 ⟨hf.deepest_le k, h.deepest_le k⟩

theorem Leaves.opening {b : UInt8} (hb : isOpening b = true) (h : Leaves n levels bytes) :
    Leaves (n + 1) levels (b :: bytes) where
  le := Nat.le_succ_of_le h.le
  run_eq k := by
    have hle := h.le
    rw [run_cons, step_opening hb, h.run_eq, Nat.add_assoc, Nat.add_comm 1, Nat.sub_add_comm hle]
  deepest_le k := by
    have hle := h.deepest_le (k + 1)
    rw [deepest_opening hb]
    omega

/-- The brackets in front of a site are the levels that are taken there. -/
theorem Begun.leaves (h : Begun next part n bytes levels site) : Leaves n levels bytes := by
  have flat {n : Nat} {bytes : Bytes} (h : ∀ k, IsFlat (outside k) bytes) : Closes n bytes :=
    closes_of_isFlat h
  induction h with
  | value hb => exact leaves_of_isFlat fun _ => isFlat_blanks hb
  | array hb _ ih | object hb _ ih =>
    exact (ih.opening rfl).append (flat fun _ => isFlat_blanks hb)
  | item _ ih | whole _ ih => exact ih
  | itemEnd h | documentEnd h => exact leaves_of_closes h.closes
  | nextItem hv _ ih => exact (ih.append (flat fun _ => isFlat_comma)).append (closes_spaced hv)
  | key hb => exact leaves_of_isFlat fun _ => isFlat_blanks hb
  | colon hb h ha => exact leaves_of_isFlat fun _ => isFlat_key (.mk hb h ha)
  | member hk _ ih =>
    exact (ih.append (flat fun _ => isFlat_colon)).append (flat fun _ => isFlat_key hk)
  | memberEnd hk h =>
    exact ((leaves_of_closes h.closes).append (flat fun _ => isFlat_colon)).append
      (flat fun _ => isFlat_key hk)
  | nextMember hk hv _ ih =>
    exact (((ih.append (flat fun _ => isFlat_comma)).append (closes_spaced hv)).append
      (flat fun _ => isFlat_colon)).append (flat fun _ => isFlat_key hk)

/-- Under another limit that the brackets keep to, the bytes lead to the same site. -/
theorem Begun.of_deepest (h : Begun next part n bytes levels site)
    (hd : (outside k).deepest bytes ≤ k + m) :
    ∃ l, m + levels = n + l ∧ Begun next part m bytes l site := by
  induction h generalizing k m with
  | @value first n blanks hb => exact ⟨m, Nat.add_comm m n, .value hb⟩
  | array hb _ ih =>
    rw [(isFlat_blanks hb).deepest_append] at hd
    obtain ⟨m, rfl, hinside⟩ := exists_of_deepest_opening_le rfl hd
    obtain ⟨l, hl, h⟩ := ih hinside
    exact ⟨l, by omega, .array hb h⟩
  | object hb _ ih =>
    rw [(isFlat_blanks hb).deepest_append] at hd
    obtain ⟨m, rfl, hinside⟩ := exists_of_deepest_opening_le rfl hd
    obtain ⟨l, hl, h⟩ := ih hinside
    exact ⟨l, by omega, .object hb h⟩
  | item _ ih =>
    obtain ⟨l, hl, h⟩ := ih hd
    exact ⟨l, hl, .item h⟩
  | @itemEnd first n bytes v h => exact ⟨m, Nat.add_comm m n, .itemEnd (h.of_deepest hd)⟩
  | nextItem hv _ ih =>
    rw [(closes_spaced hv).deepest_append_le_iff, ← List.singleton_append,
      isFlat_comma.deepest_append] at hd
    obtain ⟨l, hl, h⟩ := ih hd.2
    exact ⟨l, hl, .nextItem (spaced_of_deepest hv hd.1) h⟩
  | @key first n blanks hb => exact ⟨m, Nat.add_comm m n, .key hb⟩
  | @colon first n before literal after name hb h ha => exact ⟨m, Nat.add_comm m n, .colon hb h ha⟩
  | member hk _ ih =>
    rw [(isFlat_key hk).deepest_append, ← List.singleton_append, isFlat_colon.deepest_append] at hd
    obtain ⟨l, hl, h⟩ := ih hd
    exact ⟨l, hl, .member hk h⟩
  | @memberEnd first n key bytes name v hk h =>
    rw [(isFlat_key hk).deepest_append, ← List.singleton_append, isFlat_colon.deepest_append] at hd
    exact ⟨m, Nat.add_comm m n, .memberEnd hk (h.of_deepest hd)⟩
  | nextMember hk hv _ ih =>
    rw [(isFlat_key hk).deepest_append, ← List.singleton_append, isFlat_colon.deepest_append,
      (closes_spaced hv).deepest_append_le_iff, ← List.singleton_append,
      isFlat_comma.deepest_append] at hd
    obtain ⟨l, hl, h⟩ := ih hd.2
    exact ⟨l, hl, .nextMember hk (spaced_of_deepest hv hd.1) h⟩
  | whole _ ih =>
    obtain ⟨l, hl, h⟩ := ih hd
    exact ⟨l, hl, .whole h⟩
  | @documentEnd n bytes v h => exact ⟨m, Nat.add_comm m n, .documentEnd (h.of_deepest hd)⟩

/-! ## What is wrong at a site -/

/-- A bracket too many is the one fault that depends on the levels. -/
theorem Faulty.of_levels (h : Faulty site levels c f) :
    (∀ l, Faulty site l c f) ∨ levels = 0 ∧ (∃ first, site = .value first) ∧
      (c.peek = some bracketOpen ∨ c.peek = some braceOpen) ∧ f = ⟨.recursionLimit, c.pos⟩ := by
  cases h with
  | value hb hf => exact .inl fun _ => .value hb hf
  | @bracket first _ hb => exact .inr ⟨rfl, ⟨first, rfl⟩, hb, rfl⟩
  | text hq h => exact .inl fun _ => .text hq h
  | number hb hn h => exact .inl fun _ => .number hb hn h
  | word ht hb h => exact .inl fun _ => .word ht hb h
  | itemEnd hc hb => exact .inl fun _ => .itemEnd hc hb
  | key hq hf => exact .inl fun _ => .key hq hf
  | keyText hq h => exact .inl fun _ => .keyText hq h
  | colon hc => exact .inl fun _ => .colon hc
  | memberEnd hc hb => exact .inl fun _ => .memberEnd hc hb
  | documentEnd h => exact .inl fun _ => .documentEnd h

theorem pos_le_unexpected (c : Cursor) (reason : Reason) : c.pos ≤ (c.unexpected reason).position := by
  rw [Cursor.unexpected]
  split
  · exact Nat.le_refl _
  · split <;> exact Nat.le_refl _

theorem pos_le_of_text (hq : c.peek = some quote) (h : StringLiteral.read.FailsWith c f) :
    c.pos ≤ f.position := by
  obtain ⟨done, chars, m, hp, -, hbroken⟩ := (StringLiteral.read_failsWith_iff hq).1 h
  have hpos := hp.2
  generalize m.rest = rest at hbroken
  cases hbroken with
  | ended | cut => exact Nat.le_refl _
  | escape | control | encoding =>
    simp only
    omega

theorem pos_le_of_number (h : NumberLiteral.read.FailsWith c f) : c.pos ≤ f.position := by
  rcases NumberLiteral.read_failsWith_iff.1 h with h | ⟨_, _, -, -, -, rfl⟩
  · obtain ⟨first, front, m, -, hp, -, rfl⟩ := NumberLiteral.parts_eq_error_iff.1 h
    have hpos := hp.2
    rw [NumberLiteral.noDigit]
    split
    · simp only
      omega
    · simp only
      split <;> omega
  · exact Nat.le_refl _

/-- What is wrong at a site is not in front of it. -/
theorem Faulty.pos_le (h : Faulty site levels c f) : c.pos ≤ f.position := by
  cases h with
  | value | itemEnd | key | colon | memberEnd => exact pos_le_unexpected c _
  | bracket | documentEnd => exact Nat.le_refl _
  | text hq h | keyText hq h => exact pos_le_of_text hq h
  | number _ _ h => exact pos_le_of_number h
  | word _ _ h =>
    rcases word_failsWith_iff.1 h with ⟨-, rfl⟩ | ⟨-, -, rfl⟩
    · exact Nat.le_add_right _ _
    · exact Nat.le_refl _

/-! ## One limit and another -/

/-- The front of an input up to the first bracket that is one too many for `n` levels. -/
structure IsDeepFront (n : Nat) (input front : Bytes) : Prop where
  exists_opening : ∃ b after, input = front ++ b :: after ∧ isOpening b = true
  run_eq : (outside 0).run front = outside n
  deepest_le : (outside 0).deepest front ≤ n

variable {input front : Bytes}

theorem IsDeepFront.firstOpensAt (h : IsDeepFront n input front) :
    FirstOpensAt input n front.length := by
  obtain ⟨b, after, rfl, hb⟩ := h.exists_opening
  exact firstOpensAt_of_run_eq hb h.run_eq h.deepest_le

/-- What goes wrong goes wrong under higher limits too, unless it is a bracket too many. -/
theorem Breaks.of_le (h : Breaks .document n (Cursor.ofBytes input) f) :
    (∀ m, n ≤ m → Breaks .document m (Cursor.ofBytes input) f) ∨
      ∃ front, IsDeepFront n input front ∧ f = ⟨.recursionLimit, front.length⟩ := by
  obtain ⟨bytes, levels, site, c, hbegun, hp, hs, hf⟩ := h
  have hleaves := hbegun.leaves
  rcases hf.of_levels with hall | ⟨rfl, -, hpeek, rfl⟩
  · refine .inl fun m hm => ?_
    have hd := hleaves.deepest_le 0
    obtain ⟨l, -, h⟩ := hbegun.of_deepest (k := 0) (m := m) (by omega)
    exact ⟨bytes, l, site, c, h, hp, hs, hall l⟩
  · have hpos : c.pos = bytes.length := hp.pos_eq
    refine .inr ⟨bytes, ⟨?_, ?_, ?_⟩, by rw [hpos]⟩
    · obtain ⟨b, hb, hopen⟩ : ∃ b, c.peek = some b ∧ isOpening b = true := by
        rcases hpeek with h | h <;> exact ⟨_, h, rfl⟩
      obtain ⟨after, hrest⟩ := List.head?_eq_some_iff.1 hb
      exact ⟨b, after, by rw [← hrest]; exact hp.1, hopen⟩
    · have hrun := hleaves.run_eq 0
      rwa [Nat.sub_zero, Nat.zero_add] at hrun
    · have hd := hleaves.deepest_le 0
      rwa [Nat.zero_add] at hd

/-- What goes wrong in front of the first bracket too many goes wrong under the lower limit too. -/
theorem Breaks.of_ge (h : Breaks .document m (Cursor.ofBytes input) f) (hn : n ≤ m)
    (hfront : IsDeepFront n input front) (hlt : f.position < front.length) :
    Breaks .document n (Cursor.ofBytes input) f := by
  obtain ⟨bytes, levels, site, c, hbegun, hp, hs, hf⟩ := h
  have hpos : c.pos = bytes.length := hp.pos_eq
  have hle := hf.pos_le
  obtain ⟨more, rfl⟩ : ∃ more, front = bytes ++ more := by
    obtain ⟨b, after, hinput, -⟩ := hfront.exists_opening
    have heq : bytes ++ c.rest = front ++ b :: after := hp.1.symm.trans hinput
    rcases List.append_eq_append_iff.1 heq with ⟨more, h, -⟩ | ⟨more, h, -⟩
    · exact ⟨more, h⟩
    · have hlen := congrArg List.length h
      rw [List.length_append] at hlen
      omega
  have hd := hfront.deepest_le
  rw [deepest_append] at hd
  obtain ⟨l, hl, h⟩ := hbegun.of_deepest (k := 0) (m := n) (by omega)
  refine ⟨bytes, l, site, c, h, hp, hs, ?_⟩
  rcases hf.of_levels with hall | ⟨rfl, -⟩
  · exact hall l
  · obtain rfl : l = 0 := by omega
    exact hf

theorem ne_nil_of_spaced (h : Spaced exponentSize n bytes v) : bytes ≠ [] := by
  rintro rfl
  obtain ⟨b, hb, -⟩ := peek_of_spaced (c := Cursor.ofBytes []) h (Cursor.passes_nil.2 rfl)
  cases hb

/-- Under a higher limit an input is read the same, or has its first bracket too many in front of
all else that is wrong with it. -/
theorem decodeWithin_of_le (input : Bytes) (maxInputSize : Nat) (hn : n ≤ m) :
    decodeWithin ⟨m, maxInputSize⟩ input = decodeWithin ⟨n, maxInputSize⟩ input ∨
    ∃ i, FirstOpensAt input n i ∧
      decodeWithin ⟨n, maxInputSize⟩ input = .error (Fault.inDocument ⟨.recursionLimit, i⟩ input) ∧
      ((∃ v, decodeWithin ⟨m, maxInputSize⟩ input = .ok v) ∨
        ∃ fault : Fault, decodeWithin ⟨m, maxInputSize⟩ input = .error (fault.inDocument input) ∧
          i ≤ fault.position) := by
  have ok_of_ok {v : Value} (h : read ⟨n, maxInputSize⟩ input = .ok v) :
      read ⟨m, maxInputSize⟩ input = .ok v := by
    obtain ⟨hne, hsize, hv⟩ := (read_eq_ok_iff _ _).1 h
    refine (read_eq_ok_iff _ _).2 ⟨hne, hsize, ?_⟩
    exact (spaced_iff_nesting_le hv).2 (Nat.le_trans ((spaced_iff_nesting_le hv).1 hv) hn)
  cases hr : read ⟨n, maxInputSize⟩ input with
  | ok v =>
    refine .inl ?_
    rw [decodeWithin, decodeWithin, hr, ok_of_ok hr]
  | error f =>
    have same (h : read ⟨m, maxInputSize⟩ input = .error f) :
        decodeWithin ⟨m, maxInputSize⟩ input = decodeWithin ⟨n, maxInputSize⟩ input := by
      rw [decodeWithin, decodeWithin, hr, h]
    rcases (read_eq_error_iff _ _ _).1 hr with h | h | ⟨hsize, hne, hbreaks⟩
    · exact .inl (same ((read_eq_error_iff _ _ _).2 (.inl h)))
    · exact .inl (same ((read_eq_error_iff _ _ _).2 (.inr (.inl h))))
    rcases hbreaks.of_le with h | ⟨front, hfront, rfl⟩
    · exact .inl (same ((read_eq_error_iff _ _ _).2 (.inr (.inr ⟨hsize, hne, h m hn⟩))))
    refine .inr ⟨front.length, hfront.firstOpensAt, decodeWithin_eq_error_of_read hr, ?_⟩
    cases hr' : read ⟨m, maxInputSize⟩ input with
    | ok v => exact .inl ⟨v, (decodeWithin_eq_ok_iff _ _).2 hr'⟩
    | error g =>
      refine .inr ⟨g, decodeWithin_eq_error_of_read hr', Nat.le_of_not_lt fun hlt => ?_⟩
      -- The fault would be one under the lower limit, which has another.
      rcases (read_eq_error_iff _ _ _).1 hr' with ⟨h, -⟩ | ⟨h, -⟩ | ⟨-, -, hbreaks'⟩
      · exact hne h
      · exact absurd hsize (Nat.not_le_of_lt h)
      · have hlow := (read_eq_error_iff ⟨n, maxInputSize⟩ input g).2
          (.inr (.inr ⟨hsize, hne, hbreaks'.of_ge hn hfront hlt⟩))
        rw [hr] at hlow
        obtain rfl := Except.error.inj hlow
        exact absurd hlt (Nat.lt_irrefl _)

/-- **The limit of depth.** A document of the grammar is read just if it nests no deeper than that,
and otherwise is refused at its first bracket too many. Any input is read the same under a higher
limit, or has its first bracket too many in front of all else that is wrong with it. -/
theorem decodeWithin_depth (input : Bytes) (maxInputSize : Nat) :
    (∀ {n : Nat} {v : Value}, input.length ≤ maxInputSize → Spaced exponentSize n input v →
      ∀ limit, (decodeWithin ⟨limit, maxInputSize⟩ input = .ok v ↔ nesting input ≤ limit) ∧
        (limit < nesting input → ∃ i, FirstOpensAt input limit i ∧
          decodeWithin ⟨limit, maxInputSize⟩ input =
            .error (Fault.inDocument ⟨.recursionLimit, i⟩ input))) ∧
    ∀ limit higher, limit ≤ higher →
      decodeWithin ⟨higher, maxInputSize⟩ input = decodeWithin ⟨limit, maxInputSize⟩ input ∨
      ∃ i, FirstOpensAt input limit i ∧
        decodeWithin ⟨limit, maxInputSize⟩ input =
          .error (Fault.inDocument ⟨.recursionLimit, i⟩ input) ∧
        ((∃ v, decodeWithin ⟨higher, maxInputSize⟩ input = .ok v) ∨
          ∃ fault : Fault,
            decodeWithin ⟨higher, maxInputSize⟩ input = .error (fault.inDocument input) ∧
              i ≤ fault.position) := by
  refine ⟨fun {n v} hsize hv limit => ?_, fun limit higher hle => decodeWithin_of_le _ _ hle⟩
  have hne := ne_nil_of_spaced hv
  have hok (l : Nat) : decodeWithin ⟨l, maxInputSize⟩ input = .ok v ↔ nesting input ≤ l := by
    rw [decodeWithin_eq_ok_iff, read_eq_ok_iff, ← spaced_iff_nesting_le hv]
    exact ⟨fun h => h.2.2, fun h => ⟨hne, hsize, h⟩⟩
  refine ⟨hok limit, fun hlt => ?_⟩
  rcases decodeWithin_of_le input maxInputSize (Nat.le_of_lt hlt) with heq | ⟨i, hi, herror, -⟩
  · rw [(hok _).2 (Nat.le_refl _)] at heq
    exact absurd ((hok limit).1 heq.symm) (Nat.not_le_of_lt hlt)
  · exact ⟨i, hi, herror⟩

/-- An array beside another, the second with one more inside. -/
theorem decodeWithin_depth_siblings :
    let input := Utf8.encode "[[],[[]]]"
    decodeWithin ⟨3, 64⟩ input = .ok (.array [.array [], .array [.array []]]) ∧
      (∃ i, FirstOpensAt input 2 i ∧
        decodeWithin ⟨2, 64⟩ input = .error (Fault.inDocument ⟨.recursionLimit, i⟩ input)) ∧
      decodeWithin ⟨4, 64⟩ input = decodeWithin ⟨3, 64⟩ input := by
  intro input
  have hempty (n : Nat) : Spaced exponentSize (n + 1) [bracketOpen, bracketClose] (.array []) :=
    .of_denotes (.emptyArray (List.forall_mem_nil _))
  have hv : Spaced exponentSize 3 input (.array [.array [], .array [.array []]]) :=
    .of_denotes (.array (.more (hempty 1) (.one (.of_denotes (.array (.one (hempty 0)))))))
  have hsize : input.length ≤ 64 := by decide
  have h := (decodeWithin_depth input 64).1 hsize hv
  refine ⟨(h 3).1.2 (by decide), (h 2).2 (by decide), ?_⟩
  rcases (decodeWithin_depth input 64).2 3 4 (by decide) with heq | ⟨i, -, herror, -⟩
  · exact heq
  · rw [(h 3).1.2 (by decide)] at herror
    cases herror

end JsonCodec.Document
