/-
Fields: numbers with zeros in front of them (`Digits.padded_eq`). A number that fits has a field of
exactly the width asked for (`Digits.isField_padded`).

A field has at most ten digits, whatever is asked for (`Digits.padded_min`): more do not fit into the
buffer that they are put into from its end on (`Digits.fill`). So a field is as wide as it is to be
just if that is no wider (`Digits.padded_eq_zeroFilled_iff`).
-/
import JsonCodec.Proofs.Digits

namespace JsonCodec.Digits

open Ascii

/-- The digits of a number that is not zero; zero has none. -/
def significant (n : Nat) : Bytes := if n = 0 then [] else ofNat n

theorem significant_of_pos {n : Nat} (h : 0 < n) :
    significant n = significant (n / 10) ++ [digit n] := by
  unfold significant
  rw [if_neg (by omega)]
  by_cases hn : n < 10
  · rw [if_pos (by omega), ofNat_of_lt hn, List.nil_append]
  · rw [if_neg (by omega), ofNat_of_le (by omega)]

theorem length_significant_le_iff {n k : Nat} :
    (significant n).length ≤ k ↔ n < tenPow k := by
  induction k generalizing n with
  | zero =>
    rw [Nat.le_zero, List.length_eq_zero_iff, show tenPow 0 = 1 from rfl, Nat.lt_one_iff]
    constructor
    · intro h
      by_contra hn
      rw [significant_of_pos (by omega)] at h
      simp at h
    · intro h
      rw [h]
      rfl
  | succ k ih =>
    rw [tenPow_succ]
    by_cases hn : n = 0
    · have hpos := tenPow_pos k
      rw [hn]
      simp only [significant, if_true, List.length_nil, Nat.zero_le, true_iff]
      omega
    · have hrest := @ih (n / 10)
      rw [significant_of_pos (by omega), List.length_append, List.length_singleton]
      omega

theorem value_significant (n : Nat) : value (significant n) = n := by
  unfold significant
  split
  · next h => rw [h]; rfl
  · exact value_ofNat n

theorem isDigit_of_mem_significant (n : Nat) : ∀ b ∈ significant n, isDigit b = true := by
  unfold significant
  split
  · exact List.forall_mem_nil _
  · exact (isCanonical_iff.1 (isCanonical_ofNat n).1).2.1

/-- Where there is room, the digits stand behind as many zeros as are missing. -/
theorem padOnto_eq {room n missing : Nat} (hn : n < tenPow room) (hm : missing ≤ room)
    (after : Bytes) :
    padOnto room n missing after =
      List.replicate (missing - (significant n).length) zero ++ significant n ++ after := by
  induction room generalizing n missing after with
  | zero =>
    have hn : n < 1 := hn
    obtain rfl : n = 0 := by omega
    obtain rfl : missing = 0 := by omega
    rfl
  | succ room ih =>
    unfold padOnto
    rw [tenPow_succ] at hn
    split
    · next h =>
      rw [h.1, h.2]
      rfl
    · next h =>
      rw [ih (by omega) (by omega)]
      by_cases hz : n = 0
      · obtain ⟨k, rfl⟩ : ∃ k, missing = k + 1 := ⟨missing - 1, by omega⟩
        rw [hz]
        simp only [significant, if_true, Nat.zero_div, List.length_nil, Nat.sub_zero,
          Nat.add_sub_cancel, List.replicate_succ', List.append_nil, List.append_assoc,
          List.singleton_append]
        rfl
      · rw [significant_of_pos (n := n) (by omega), List.length_append, List.length_singleton,
          show missing - 1 - (significant (n / 10)).length =
            missing - ((significant (n / 10)).length + 1) by omega]
        simp only [List.append_assoc, List.singleton_append]

/-- **The digits of a number of at most ten stand behind as many zeros as are missing.** -/
theorem padded_eq {n width : Nat} (hn : n < tenPow fieldRoom) (hw : width ≤ fieldRoom) :
    padded n width =
      List.replicate (width - (significant n).length) zero ++ significant n := by
  rw [padded, padOnto_eq hn hw, List.append_nil]

/-- Exactly so many digits, which spell a number. -/
structure IsField (width n : Nat) (bytes : Bytes) : Prop where
  length_eq : bytes.length = width
  isDigit_of_mem : ∀ b ∈ bytes, isDigit b = true
  value_eq : value bytes = n

/-- **A number that has no more digits than its field fills it exactly.** -/
theorem isField_padded {n width : Nat} (hw : width ≤ fieldRoom) (h : n < tenPow width) :
    IsField width n (padded n width) := by
  have hroom : n < tenPow fieldRoom :=
    Nat.lt_of_lt_of_le h (Nat.pow_le_pow_right (by decide) hw)
  have hlength := length_significant_le_iff.2 h
  rw [padded_eq hroom hw]
  refine ⟨?_, List.forall_mem_append.2 ⟨fun b hb => ?_, isDigit_of_mem_significant n⟩, ?_⟩
  · rw [List.length_append, List.length_replicate]
    omega
  · rw [List.eq_of_mem_replicate hb]
    rfl
  · rw [value_append, value_replicate_zero, value_significant, Nat.zero_mul, Nat.zero_add]

/-! ## Any width -/

/-- Where more digits are missing than there is room for, the room is filled up. -/
theorem padOnto_of_le {room n missing : Nat} (h : room ≤ missing) (after : Bytes) :
    padOnto room n missing after = padOnto room n room after := by
  induction room generalizing n missing after with
  | zero => rfl
  | succ room ih =>
    unfold padOnto
    rw [if_neg (by omega), if_neg (by omega), ih (by omega)]
    rfl

/-- No field is wider than the longest. -/
theorem padded_min (n width : Nat) : padded n (min width fieldRoom) = padded n width := by
  by_cases h : width ≤ fieldRoom
  · rw [Nat.min_eq_left h]
  · rw [Nat.min_eq_right (by omega), padded, padded, padOnto_of_le (Nat.le_of_not_le h)]

/-- Digits behind as many zeros as they are short of a width. -/
def zeroFilled (width : Nat) (digits : Bytes) : Bytes :=
  List.replicate (width - digits.length) zero ++ digits

theorem length_zeroFilled (width : Nat) (digits : Bytes) :
    (zeroFilled width digits).length = max width digits.length := by
  rw [zeroFilled, List.length_append, List.length_replicate]
  omega

/-- The only digit of zero is one of the zeros in front of it, if there are any. -/
theorem zeroFilled_significant {n width : Nat} (h : 0 < n ∨ 0 < width) :
    zeroFilled width (significant n) = zeroFilled width (ofNat n) := by
  by_cases hn : n = 0
  · obtain ⟨k, rfl⟩ : ∃ k, width = k + 1 := ⟨width - 1, by omega⟩
    rw [hn, ofNat_of_lt (by decide)]
    simp only [zeroFilled, significant, if_true, List.length_nil, List.length_singleton, Nat.sub_zero,
      Nat.add_sub_cancel, List.append_nil, List.replicate_succ']
    rfl
  · rw [significant, if_neg hn]

theorem padded_eq_zeroFilled {n : Nat} (hn : n < tenPow fieldRoom) (width : Nat) :
    padded n width = zeroFilled (min width fieldRoom) (significant n) := by
  rw [← padded_min, padded_eq hn (Nat.min_le_right ..), zeroFilled]

/-- A width above the longest field leaves characters out, and so does none for zero. -/
theorem length_padded_iff {n : Nat} (hn : n < tenPow fieldRoom) (width : Nat) :
    (padded n width).length = max width (ofNat n).length ↔
      width ≤ fieldRoom ∧ (0 < n ∨ 0 < width) := by
  have hlength : (significant n).length ≤ fieldRoom := length_significant_le_iff.2 hn
  rw [padded_eq_zeroFilled hn, length_zeroFilled]
  by_cases hz : n = 0
  · rw [hz, ofNat_of_lt (by decide)]
    simp only [significant, if_true, List.length_nil, List.length_singleton]
    omega
  · rw [significant, if_neg hz] at hlength ⊢
    omega

/-! ## The buffer -/

/-- Puts the digits of `n` into a buffer, the last one first, each in front of the place `pos`, until
`n` is used up and there are `width`, or the front of the buffer is reached. Answers the buffer and
the place of the first digit, or nothing if a place is outside of the buffer. -/
def fill (width : Nat) : (pos n : Nat) → (buffer : Array UInt8) → Option (Array UInt8 × Nat)
  | pos, n, buffer =>
    if n = 0 ∧ width ≤ buffer.size - pos then some (buffer, pos)
    else
      match pos with
      | 0 => none
      | place + 1 =>
        if h : place < buffer.size then
          let buffer := buffer.set place (digit n)
          if place = 0 then some (buffer, place) else fill width place (n / 10) buffer
        else none

theorem drop_set {buffer : Array UInt8} {place : Nat} (h : place < buffer.size) (b : UInt8) :
    (buffer.set place b).toList.drop place = b :: buffer.toList.drop (place + 1) := by
  have hlt : place < (buffer.set place b).toList.length := by simpa using h
  rw [List.drop_eq_getElem_cons hlt]
  simp [List.drop_set]

/-- No place is outside of the buffer, and what is in it at the end is what the padding makes of what
was in it before. The front is not left: where it is reached, no further digit is put. -/
theorem exists_fill {width pos : Nat} {buffer : Array UInt8} (hfront : 0 < pos)
    (hpos : pos ≤ buffer.size) (n : Nat) :
    ∃ filled first, fill width pos n buffer = some (filled, first) ∧ first ≤ filled.size ∧
      filled.toList.drop first =
        padOnto pos n (width - (buffer.size - pos)) (buffer.toList.drop pos) := by
  induction pos generalizing n buffer with
  | zero => exact absurd hfront (Nat.lt_irrefl 0)
  | succ place ih =>
    unfold fill padOnto
    by_cases hdone : n = 0 ∧ width ≤ buffer.size - (place + 1)
    · rw [if_pos hdone, if_pos ⟨hdone.1, by omega⟩]
      exact ⟨buffer, place + 1, rfl, hpos, rfl⟩
    · have hput := drop_set hpos (digit n)
      rw [if_neg hdone, if_neg (by omega)]
      simp only [show place < buffer.size from hpos, dite_true]
      by_cases hplace : place = 0
      · subst hplace
        exact ⟨_, 0, if_pos rfl, Nat.zero_le _, hput⟩
      · have hsize : (buffer.set place (digit n)).size = buffer.size := Array.size_set ..
        have hwithin : place ≤ (buffer.set place (digit n)).size := by omega
        have hmissing : width - (buffer.size - (place + 1)) - 1 = width - (buffer.size - place) := by
          omega
        obtain ⟨filled, first, hfill, hfirst, hdrop⟩ :=
          ih (Nat.pos_of_ne_zero hplace) hwithin (n / 10)
        rw [hsize, hput] at hdrop
        rw [if_neg hplace, hmissing]
        exact ⟨filled, first, hfill, hfirst, hdrop⟩

/-- **A field holds the digits of its number behind as many zeros as they are short of the width, just
if the width is at most ten** and it is not zero without a width, for which nothing is written. A
width above ten is taken for ten. The digits are put into a buffer of ten bytes and never outside of
it. -/
theorem padded_eq_zeroFilled_iff (n : UInt32) (width : Nat) :
    (padded n.toNat width = zeroFilled width (ofNat n.toNat) ↔
        width ≤ 10 ∧ (0 < n.toNat ∨ 0 < width)) ∧
      ((padded n.toNat width).length = max width (ofNat n.toNat).length ↔
        width ≤ 10 ∧ (0 < n.toNat ∨ 0 < width)) ∧
      padded n.toNat width = zeroFilled (min width 10) (significant n.toNat) ∧
      ∃ buffer first, fill width 10 n.toNat (Array.replicate 10 0) = some (buffer, first) ∧
        first ≤ buffer.size ∧ buffer.toList.drop first = padded n.toNat width := by
  have hn : n.toNat < tenPow fieldRoom := Nat.lt_trans n.toNat_lt (by decide)
  have hpadded := padded_eq_zeroFilled hn width
  have hlength := length_padded_iff hn width
  refine ⟨⟨fun h => ?_, fun h => ?_⟩, hlength, hpadded, ?_⟩
  · refine hlength.1 ?_
    rw [h, length_zeroFilled]
  · have hmin : min width fieldRoom = width := Nat.min_eq_left h.1
    rw [hpadded, hmin, zeroFilled_significant h.2]
  · have hbuffer : 10 ≤ (Array.replicate 10 (0 : UInt8)).size := Nat.le_of_eq Array.size_replicate.symm
    exact exists_fill (by decide) hbuffer n.toNat

/-- Seven in eleven digits has ten. -/
theorem padded_seven_eleven :
    padded 7 11 = zeroFilled 10 (ofNat 7) ∧ padded 7 11 ≠ zeroFilled 11 (ofNat 7) := by
  rw [ofNat_of_lt (by decide)]
  decide

end JsonCodec.Digits
