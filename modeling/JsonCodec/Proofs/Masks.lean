/-
Masks read flag by flag. To set a bit or clear one is to set or clear its flag and leave the others
(`Options.ofMask?_or`, `Options.ofMask?_and_not`), so that what is shown of two options that agree
outside some flags (`Options.AgreeBut`) is said of masks.
-/
import JsonCodec.Options

namespace JsonCodec

namespace Flag

/-- The mask of some flags. -/
def bits : List Flag → UInt32
  | [] => 0
  | flag :: flags => flag.bit ||| bits flags

/-- Whether the bit of a flag is set. -/
def isSet (flag : Flag) (mask : UInt32) : Bool := mask &&& flag.bit != 0

theorem bits_singleton (flag : Flag) : bits [flag] = flag.bit := UInt32.or_zero

theorem isSet_eq_getLsbD (flag : Flag) (mask : UInt32) :
    flag.isSet mask = mask.toBitVec.getLsbD flag.place := by
  have hbit : flag.bit.toBitVec = BitVec.twoPow 32 flag.place := by cases flag <;> rfl
  have hone : BitVec.twoPow 32 flag.place ≠ 0#32 := by cases flag <;> decide
  have hset : (mask &&& flag.bit = 0) ↔ mask.toBitVec.getLsbD flag.place = false := by
    rw [← UInt32.toBitVec_inj, UInt32.toBitVec_and, hbit, BitVec.and_twoPow]
    cases mask.toBitVec.getLsbD flag.place with
    | true => exact iff_of_false hone Bool.noConfusion
    | false => exact iff_of_true rfl rfl
  rw [isSet, Bool.eq_iff_iff, bne_iff_ne, ne_eq, hset, Bool.not_eq_false]

theorem isSet_or (flag : Flag) (a b : UInt32) :
    flag.isSet (a ||| b) = (flag.isSet a || flag.isSet b) := by
  simp only [isSet_eq_getLsbD, UInt32.toBitVec_or, BitVec.getLsbD_or]

theorem isSet_and_not (flag : Flag) (a b : UInt32) :
    flag.isSet (a &&& ~~~b) = (flag.isSet a && !flag.isSet b) := by
  have hlt : flag.place < 32 := by cases flag <;> decide
  simp only [isSet_eq_getLsbD, UInt32.toBitVec_and, UInt32.toBitVec_not, BitVec.getLsbD_and,
    BitVec.getLsbD_not, hlt, decide_true, Bool.true_and]

theorem isSet_bit (flag other : Flag) : flag.isSet other.bit = decide (flag = other) := by
  cases flag <;> cases other <;> rfl

theorem isSet_bits (flag : Flag) (flags : List Flag) :
    flag.isSet (bits flags) = decide (flag ∈ flags) := by
  induction flags with
  | nil => cases flag <;> rfl
  | cons other flags ih =>
    simp only [bits, isSet_or, isSet_bit, ih, List.mem_cons, Bool.decide_or]

theorem or_and (a b c : UInt32) : (a ||| b) &&& c = (a &&& c) ||| (b &&& c) := by
  rw [← UInt32.toBitVec_inj]
  ext i hi
  simp [Bool.and_or_distrib_right]

/-- Every bit of the mask is that of a flag. -/
theorem bits_and_not_known (flags : List Flag) : bits flags &&& ~~~known = 0 := by
  have hbit (flag : Flag) : flag.bit &&& ~~~known = 0 := by cases flag <;> rfl
  induction flags with
  | nil => exact UInt32.zero_and
  | cons flag flags ih => rw [bits, or_and, hbit, ih, UInt32.or_zero]

end Flag

namespace Options

/-- The two have the same flags, but for some. -/
def AgreeBut (o : Options) (flags : List Flag) (o' : Options) : Prop :=
  ∀ flag ∉ flags, o'.has flag = o.has flag

variable {mask : UInt32} {o : Options}

theorem has_ofFlags (set : Flag → Bool) (flag : Flag) : (ofFlags set).has flag = set flag := by
  cases flag <;> rfl

theorem ofMask?_eq_ok (h : mask &&& ~~~Flag.known = 0) :
    ofMask? mask = .ok (ofFlags fun flag => flag.isSet mask) := if_pos h

/-- A mask that is read has no bits but those of its flags. -/
theorem isSet_of_ofMask? (h : ofMask? mask = .ok o) :
    mask &&& ~~~Flag.known = 0 ∧ ∀ flag, o.has flag = flag.isSet mask := by
  rw [ofMask?] at h
  split at h
  · next hknown =>
    cases h
    exact ⟨hknown, has_ofFlags _⟩
  · cases h

/-- **Setting the bits of some flags sets these flags.** -/
theorem ofMask?_or (h : ofMask? mask = .ok o) (flags : List Flag) :
    ∃ o', ofMask? (mask ||| Flag.bits flags) = .ok o' ∧
      ∀ flag, o'.has flag = (o.has flag || decide (flag ∈ flags)) := by
  obtain ⟨hknown, hset⟩ := isSet_of_ofMask? h
  refine ⟨_, ofMask?_eq_ok ?_, fun flag => ?_⟩
  · rw [Flag.or_and, hknown, Flag.bits_and_not_known, UInt32.or_zero]
  · rw [has_ofFlags, Flag.isSet_or, Flag.isSet_bits, hset]

/-- **Clearing the bits of some flags clears these flags.** -/
theorem ofMask?_and_not (h : ofMask? mask = .ok o) (flags : List Flag) :
    ∃ o', ofMask? (mask &&& ~~~Flag.bits flags) = .ok o' ∧
      ∀ flag, o'.has flag = (o.has flag && !decide (flag ∈ flags)) := by
  obtain ⟨hknown, hset⟩ := isSet_of_ofMask? h
  refine ⟨_, ofMask?_eq_ok ?_, fun flag => ?_⟩
  · rw [UInt32.and_assoc, UInt32.and_comm (~~~_), ← UInt32.and_assoc, hknown, UInt32.zero_and]
  · rw [has_ofFlags, Flag.isSet_and_not, Flag.isSet_bits, hset]

/-- Setting one flag leaves the others as they were. -/
theorem exists_agreeBut (h : ofMask? mask = .ok o) (flag : Flag) :
    ∃ o', ofMask? (mask ||| flag.bit) = .ok o' ∧ o'.has flag = true ∧ o.AgreeBut [flag] o' := by
  obtain ⟨o', hm, hhas⟩ := ofMask?_or h [flag]
  rw [Flag.bits_singleton] at hm
  refine ⟨o', hm, by rw [hhas]; simp, fun other hother => ?_⟩
  rw [hhas, decide_eq_false hother, Bool.or_false]

end Options

end JsonCodec
