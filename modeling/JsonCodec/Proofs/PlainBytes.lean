/-
Bytes that stand for themselves between quotes: printable ASCII without quote and backslash. The
texts of numbers, dates, times and UUIDs have no others.
-/
import JsonCodec.Proofs.Digits
import JsonCodec.Proofs.Document.Text
import JsonCodec.Temporal.Text
import JsonCodec.Uuid

namespace JsonCodec

open Ascii Grammar

/-! ## The bytes of numbers -/

/-- The bytes that a number has. -/
def numberBytes : Bytes := (List.range 10).map digit ++ [minus, plus, point, letterE, capitalE]

theorem mem_numberBytes_of_isDigit {b : UInt8} (h : isDigit b = true) : b ∈ numberBytes := by
  rw [← Digits.digit_digitValue h]
  exact List.mem_append_left _ (List.mem_map_of_mem (List.mem_range.2 (Digits.digitValue_lt h)))

/-- A literal has no other bytes. -/
theorem Grammar.Number.mem_numberBytes (n : Number) : ∀ b ∈ n.bytes, b ∈ numberBytes := by
  have digits {bytes : Bytes} (h : IsDigits bytes) : ∀ b ∈ bytes, b ∈ numberBytes :=
    fun b hb => mem_numberBytes_of_isDigit (h.2 b hb)
  have whole : ∀ b ∈ n.whole, b ∈ numberBytes :=
    fun b hb => mem_numberBytes_of_isDigit ((Digits.isCanonical_iff.1 n.whole_ok).2.1 b hb)
  have sign : ∀ b ∈ (if n.negative then [minus] else []), b ∈ numberBytes := by
    split
    · exact List.forall_mem_singleton.2 (by decide)
    · exact List.forall_mem_nil _
  refine List.forall_mem_append.2 ⟨List.forall_mem_append.2 ⟨sign, whole⟩,
    List.forall_mem_append.2 ⟨?_, ?_⟩⟩
  · cases hf : n.fraction with
    | none => exact List.forall_mem_nil _
    | some f => exact List.forall_mem_cons.2 ⟨by decide, digits (n.fraction_ok f hf)⟩
  · cases n.exponent with
    | none => exact List.forall_mem_nil _
    | some e =>
      refine List.forall_mem_cons.2 ⟨?_, List.forall_mem_append.2 ⟨?_, digits e.digits_ok⟩⟩
      · rcases e.letter_mem with h | h <;> rw [h] <;> decide
      · rcases e.sign_mem with h | h | h <;> rw [h]
        · exact List.forall_mem_nil _
        · exact List.forall_mem_singleton.2 (by decide)
        · exact List.forall_mem_singleton.2 (by decide)

/-! ## The bytes that need no escape -/

/-- Printable ASCII other than the quote and the backslash. -/
def isPlainByte (b : UInt8) : Bool := 0x20 ≤ b && b < 0x80 && b != quote && b != backslash

/-- Bytes that need no escape. -/
def PlainBytes (bytes : Bytes) : Prop := ∀ b ∈ bytes, isPlainByte b = true

namespace PlainBytes

@[simp] theorem nil : PlainBytes [] := List.forall_mem_nil _

@[simp] theorem append_iff {a b : Bytes} : PlainBytes (a ++ b) ↔ PlainBytes a ∧ PlainBytes b :=
  List.forall_mem_append

@[simp] theorem cons_iff {a : UInt8} {b : Bytes} :
    PlainBytes (a :: b) ↔ isPlainByte a = true ∧ PlainBytes b := List.forall_mem_cons

theorem sublist {a b : Bytes} (h : PlainBytes b) (hs : a.Sublist b) : PlainBytes a :=
  fun x hx => h x (hs.subset hx)

/-! ## Numbers -/

theorem isPlainByte_of_mem_numberBytes : ∀ b ∈ numberBytes, isPlainByte b = true :=
  List.all_eq_true.1 (by decide)

theorem isPlainByte_of_isDigit {b : UInt8} (h : isDigit b = true) : isPlainByte b = true :=
  isPlainByte_of_mem_numberBytes b (mem_numberBytes_of_isDigit h)

theorem of_digits {bytes : Bytes} (h : ∀ b ∈ bytes, isDigit b = true) : PlainBytes bytes :=
  fun b hb => isPlainByte_of_isDigit (h b hb)

theorem padOnto (room n missing : Nat) {after : Bytes} (h : PlainBytes after) :
    PlainBytes (Digits.padOnto room n missing after) := by
  induction room generalizing n missing after with
  | zero => exact h
  | succ room ih =>
    rw [Digits.padOnto]
    split
    · exact h
    · exact ih _ _ (cons_iff.2 ⟨isPlainByte_of_isDigit (Digits.isDigit_digit n), h⟩)

@[simp] theorem padded (n width : Nat) : PlainBytes (Digits.padded n width) := padOnto _ _ _ nil

theorem ofNat (n : Nat) : PlainBytes (Digits.ofNat n) :=
  of_digits (Digits.isCanonical_iff.1 (Digits.isCanonical_ofNat n).1).2.1

theorem ofInt (z : Int) : PlainBytes (Digits.ofInt z) := by
  rw [Digits.ofInt]
  split
  · exact cons_iff.2 ⟨rfl, ofNat _⟩
  · exact ofNat _

@[simp] theorem ofIntSigned (z : Int) : PlainBytes (Digits.ofIntSigned z) := by
  rw [Digits.ofIntSigned]
  split
  · exact ofInt z
  · exact cons_iff.2 ⟨rfl, ofInt z⟩

theorem number (n : Number) : PlainBytes n.bytes :=
  fun b hb => isPlainByte_of_mem_numberBytes b (n.mem_numberBytes b hb)

theorem hexDigit (n : Nat) : isPlainByte (Ascii.hexDigit n) = true := by
  have sixteen : ∀ d < 16,
      isPlainByte (UInt8.ofNat (if d < 10 then 0x30 + d else 0x57 + d)) = true := by decide
  exact sixteen (n % 16) (Nat.mod_lt n (by decide))

theorem hex (width n : Nat) : PlainBytes (Ascii.hex width n) := by
  induction width generalizing n with
  | zero => exact nil
  | succ width ih =>
    rw [Ascii.hex]
    exact append_iff.2 ⟨ih _, cons_iff.2 ⟨hexDigit n, nil⟩⟩

/-! ## Dates, times and UUIDs -/

theorem date (d : Date) : PlainBytes d.text := by
  simp only [Date.text, append_iff, cons_iff, padded, and_true]
  refine ⟨⟨?_, rfl⟩, rfl⟩
  split
  · exact padded _ _
  · exact ofIntSigned _

theorem timeOfDay (t : TimeOfDay) (o : Options) : PlainBytes (t.text o) := by
  have clock : PlainBytes (Digits.padded t.hour 2 ++ colon :: Digits.padded t.minute 2 ++
      colon :: Digits.padded t.second 2) := by
    simp only [append_iff, cons_iff, padded, and_true, true_and]
    exact ⟨rfl, rfl⟩
  rw [TimeOfDay.text]
  split
  · exact clock
  · exact append_iff.2 ⟨clock, cons_iff.2 ⟨rfl, padded _ _⟩⟩

theorem offset (offset : Offset) (o : Options) : PlainBytes (offset.text o) := by
  have minutes (sign : UInt8) (hs : isPlainByte sign = true) (size : Nat) :
      PlainBytes (sign :: Digits.padded (size / 3600) 2 ++
        colon :: Digits.padded (size % 3600 / 60) 2) := by
    simp only [append_iff, cons_iff, padded, and_true]
    exact ⟨hs, rfl⟩
  have hsign : isPlainByte (if offset.seconds < 0 then minus else plus) = true := by split <;> rfl
  rw [Offset.text]
  split
  · exact cons_iff.2 ⟨rfl, nil⟩
  · simp only
    split
    · exact minutes _ hsign _
    · exact append_iff.2 ⟨minutes _ hsign _, cons_iff.2 ⟨rfl, padded _ _⟩⟩

theorem time (t : Time) (o : Options) : PlainBytes (t.text o) := by
  rw [Time.text]
  refine append_iff.2 ⟨timeOfDay _ o, ?_⟩
  cases t.offset with
  | none => exact nil
  | some x => exact offset x o

theorem dateTime {t : DateTime} {o : Options} {b : Bytes} (h : t.text o = .ok b) : PlainBytes b := by
  rw [DateTime.text] at h
  split at h
  · cases h
    simp only [append_iff, cons_iff]
    exact ⟨⟨date _, rfl, timeOfDay _ o⟩, offset _ o⟩
  · cases h

theorem uuid (id : Uuid) : PlainBytes id.text := by
  have h := hex 32 id.bits.toNat
  have take (n k : Nat) : PlainBytes (((Ascii.hex 32 id.bits.toNat).drop n).take k) :=
    h.sublist ((List.take_sublist ..).trans (List.drop_sublist ..))
  simp only [Uuid.text, append_iff, cons_iff]
  exact ⟨⟨⟨⟨h.sublist (List.take_sublist ..), rfl, take 8 4⟩, rfl, take 12 4⟩, rfl, take 16 4⟩, rfl,
    h.sublist (List.drop_sublist ..)⟩

end PlainBytes

end JsonCodec
