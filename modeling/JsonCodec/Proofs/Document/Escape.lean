/-
Reading an escape: `Escape.read` takes exactly what the grammar lets stand behind a backslash.
-/
import JsonCodec.Proofs.Grammar
import JsonCodec.Document.StringLiteral

namespace JsonCodec.Escape

open Ascii Grammar

/-- Four hexadecimal digits at the front, and the unit that they spell. -/
theorem unit?_eq_some_iff {bytes : Bytes} {n : Nat} :
    unit? bytes = some n ↔ ∃ digits rest, bytes = digits ++ rest ∧ CodeUnit digits n := by
  constructor
  · intro h
    match bytes, h with
    | a :: b :: c :: d :: rest, h =>
      simp only [unit?, bind, Option.bind_eq_some_iff, pure, Option.some.injEq] at h
      obtain ⟨i, ha, j, hb, k, hc, l, hd, rfl⟩ := h
      exact ⟨[a, b, c, d], rest, rfl, .mk ha hb hc hd⟩
  · rintro ⟨_, rest, rfl, ⟨ha, hb, hc, hd⟩⟩
    simp only [List.cons_append, unit?, ha, hb, hc, hd]
    rfl

theorem length_of_codeUnit {digits : Bytes} {n : Nat} (h : CodeUnit digits n) : digits.length = 4 := by
  cases h
  rfl

theorem short?_eq_some_iff {letter : UInt8} {c : Char} :
    short? letter = some c ↔ (letter, c) ∈ shortEscapes := by
  simp only [short?, shortEscapes, List.mem_cons, Prod.mk.injEq, List.not_mem_nil, or_false]
  grind

theorem isHighSurrogate_iff {n : Nat} : isHighSurrogate n = true ↔ 0xD800 ≤ n ∧ n ≤ 0xDBFF := by
  simp [isHighSurrogate]

theorem isLowSurrogate_iff {n : Nat} : isLowSurrogate n = true ↔ 0xDC00 ≤ n ∧ n ≤ 0xDFFF := by
  simp [isLowSurrogate]

/-- What `readLow` takes is the escape of a low surrogate. -/
theorem readLow_eq_char_iff {high length : Nat} {rest : Bytes} {c : Char} :
    readLow high rest = .char c length ↔
      ∃ low n more, rest = backslash :: letterU :: (low ++ more) ∧ CodeUnit low n ∧
        (0xDC00 ≤ n ∧ n ≤ 0xDFFF) ∧ c = joined high n ∧ length = 11 := by
  simp only [readLow]
  constructor
  · intro h
    split at h
    · next hp =>
      obtain ⟨after, rfl⟩ := List.isPrefixOf_iff_prefix.1 hp
      split at h
      · cases h
      · next n hn =>
        obtain ⟨low, more, he, hl⟩ := unit?_eq_some_iff.1 hn
        split at h
        · next hs =>
          obtain ⟨hc, hn⟩ := Escape.char.inj h
          exact ⟨low, n, more, congrArg (backslash :: letterU :: ·) he, hl,
            isLowSurrogate_iff.1 hs, hc.symm, hn.symm⟩
        · cases h
    · cases h
  · rintro ⟨low, n, more, rfl, hl, hn, hc, hlen⟩
    have hp : [backslash, letterU].isPrefixOf (backslash :: letterU :: (low ++ more)) = true :=
      List.isPrefixOf_iff_prefix.2 ⟨low ++ more, rfl⟩
    have hu : unit? ((backslash :: letterU :: (low ++ more)).drop 2) = some n :=
      unit?_eq_some_iff.2 ⟨low, more, rfl, hl⟩
    rw [if_pos hp, hu, hc, hlen]
    exact if_pos (isLowSurrogate_iff.2 hn)

theorem readUnit_eq_char_iff {length : Nat} {bytes : Bytes} {c : Char} :
    readUnit bytes = .char c length ↔
      (∃ digits n more, bytes = digits ++ more ∧ CodeUnit digits n ∧
        ¬(0xD800 ≤ n ∧ n ≤ 0xDFFF) ∧ c = Char.ofNat n ∧ length = 5) ∨
      ∃ high m low n more, bytes = high ++ backslash :: letterU :: (low ++ more) ∧
        CodeUnit high m ∧ (0xD800 ≤ m ∧ m ≤ 0xDBFF) ∧ CodeUnit low n ∧
        (0xDC00 ≤ n ∧ n ≤ 0xDFFF) ∧ c = joined m n ∧ length = 11 := by
  simp only [readUnit]
  constructor
  · intro h
    split at h
    · cases h
    · next m hm =>
      obtain ⟨digits, more, rfl, hd⟩ := unit?_eq_some_iff.1 hm
      have hdrop : (digits ++ more).drop 4 = more := List.drop_left' (length_of_codeUnit hd)
      split at h
      · next hs =>
        rw [hdrop] at h
        obtain ⟨low, n, more, rfl, hl, hn, hc, hlen⟩ := readLow_eq_char_iff.1 h
        exact .inr ⟨digits, m, low, n, more, rfl, hd, isHighSurrogate_iff.1 hs, hl, hn, hc, hlen⟩
      · next hs =>
        split at h
        · cases h
        · next hs' =>
          obtain ⟨hc, hlen⟩ := Escape.char.inj h
          rw [isHighSurrogate_iff] at hs
          rw [isLowSurrogate_iff] at hs'
          exact .inl ⟨digits, m, more, rfl, hd, by omega, hc.symm, hlen.symm⟩
  · rintro (⟨digits, n, more, rfl, hd, hn, hc, hlen⟩ |
      ⟨high, m, low, n, more, rfl, hh, hm, hl, hn, hc, hlen⟩)
    · rw [unit?_eq_some_iff.2 ⟨digits, more, rfl, hd⟩]
      have hs : ¬isHighSurrogate n = true := by
        rw [isHighSurrogate_iff]
        omega
      have hs' : ¬isLowSurrogate n = true := by
        rw [isLowSurrogate_iff]
        omega
      simp only [if_neg hs, if_neg hs', hc, hlen]
    · rw [unit?_eq_some_iff.2 ⟨high, _, rfl, hh⟩, List.drop_left' (length_of_codeUnit hh)]
      simp only [if_pos (isHighSurrogate_iff.2 hm)]
      exact readLow_eq_char_iff.2 ⟨low, n, more, rfl, hl, hn, hc, hlen⟩

/-- **The reader takes behind a backslash what the grammar lets stand there.** -/
theorem read_eq_char_iff {length : Nat} {bytes : Bytes} {c : Char} :
    read bytes = .char c length ↔
      ∃ sequence more, bytes = sequence ++ more ∧ Escaped sequence c ∧ sequence.length = length := by
  constructor
  · intro h
    match bytes, h with
    | letter :: rest, h =>
      simp only [read] at h
      split at h
      · next hu =>
        subst hu
        rcases readUnit_eq_char_iff.1 h with ⟨digits, n, more, rfl, hd, hn, rfl, rfl⟩ |
          ⟨high, m, low, n, more, rfl, hh, hm, hl, hn, hc, rfl⟩
        · refine ⟨letterU :: digits, more, rfl, .unit hd hn, ?_⟩
          rw [List.length_cons, length_of_codeUnit hd]
        · refine ⟨letterU :: (high ++ backslash :: letterU :: low), more, ?_, ?_, ?_⟩
          · simp
          · rw [hc, joined]
            exact .pair hh hm hl hn
          · simp [length_of_codeUnit hh, length_of_codeUnit hl]
      · split at h
        · next hc =>
          cases h
          exact ⟨[letter], rest, rfl, .short (short?_eq_some_iff.1 hc), rfl⟩
        · cases h
  · rintro ⟨_, more, rfl, h, rfl⟩
    cases h with
    | @short letter c hs =>
      have hu : letter ≠ letterU := by
        rintro rfl
        have hn : short? letterU = none := rfl
        rw [← short?_eq_some_iff, hn] at hs
        cases hs
      rw [List.singleton_append, read, if_neg hu, short?_eq_some_iff.2 hs]
      rfl
    | @unit digits n hd hn =>
      rw [List.cons_append, read, if_pos rfl, List.length_cons, length_of_codeUnit hd]
      exact readUnit_eq_char_iff.2 (.inl ⟨digits, n, more, rfl, hd, hn, rfl, rfl⟩)
    | @pair high low m n hh hm hl hn =>
      have hlen : (letterU :: (high ++ backslash :: letterU :: low)).length = 11 := by
        simp [length_of_codeUnit hh, length_of_codeUnit hl]
      rw [hlen, List.cons_append, read, if_pos rfl, List.append_assoc]
      refine readUnit_eq_char_iff.2
        (.inr ⟨high, m, low, n, more, rfl, hh, hm, hl, hn, ?_, rfl⟩)
      rw [joined]

end JsonCodec.Escape
