/-
What "the nearest binary64 number" is, for magnitudes and rational numbers.

Values are compared as rationals: a magnitude `m` below infinity stands for `units m` times `2 ^ -1074`,
and infinity counts as the number that would come after the largest finite one, so a value from
the middle between the two on rounds to infinity. Of two magnitudes equally near the even one is
nearest (`IsNearest`). There is at most one (`IsNearest.unique`), a value of a magnitude is its
own (`isNearest_magnitudeValue`), and `isNearest_of_places` says that rounding to a whole number of
units in the last place, with the carry running on, finds it.
-/
import Mathlib.Algebra.Order.Field.Rat
import Mathlib.Tactic.Linarith
import Mathlib.Tactic.Positivity
import Mathlib.Tactic.Ring
import Mathlib.Tactic.FieldSimp
import Mathlib.Tactic.NormNum
import Mathlib.Algebra.Order.AbsoluteValue.Basic
import JsonCodec.Binary64

namespace JsonCodec.Binary64

/-- The value of a magnitude, counted in the least positive number. -/
def units (m : Nat) : Nat :=
  if m < hiddenBit then m else (m % hiddenBit + hiddenBit) * 2 ^ (m / hiddenBit - 1)

/-- How many of the least positive number make one. -/
def unitsPerOne : Nat := 2 ^ 1074

theorem unitsPerOne_pos : (0 : ℚ) < unitsPerOne := by
  unfold unitsPerOne
  positivity

/-- The value of a magnitude. Infinity counts as the number that would come next. -/
def magnitudeValue (m : Nat) : ℚ := units m / unitsPerOne

/-- `m` is the magnitude nearest to `q`, and even if another one is as near. -/
def IsNearest (q : ℚ) (m : Nat) : Prop :=
  m ≤ infinityMagnitude ∧ ∀ k ≤ infinityMagnitude, k ≠ m →
    |q - magnitudeValue m| < |q - magnitudeValue k| ∨
      |q - magnitudeValue m| = |q - magnitudeValue k| ∧ m % 2 = 0

/-! ## Magnitudes in order -/

/-- A significand at an exponent. The carry of a significand that is full is in place. -/
theorem units_add {e u : Nat} (hu : u ≤ 2 * hiddenBit) (he : e = 0 ∨ hiddenBit ≤ u) :
    units (e * hiddenBit + u) = u * 2 ^ e := by
  have hb : 0 < hiddenBit := by decide
  unfold units
  rcases Nat.lt_or_ge u hiddenBit with h | h
  · obtain rfl : e = 0 := by omega
    rw [if_pos (by omega), Nat.zero_mul, Nat.zero_add, Nat.pow_zero, Nat.mul_one]
  · rw [if_neg (by have := Nat.zero_le (e * hiddenBit); omega)]
    rcases Nat.lt_or_ge u (2 * hiddenBit) with h2 | h2
    · obtain ⟨r, rfl⟩ := Nat.exists_eq_add_of_le h
      have hr : r < hiddenBit := by omega
      rw [← Nat.add_assoc, ← Nat.succ_mul, Nat.mul_comm (e.succ), Nat.mul_add_mod,
        Nat.mul_add_div hb, Nat.mod_eq_of_lt hr, Nat.div_eq_of_lt hr, Nat.add_comm r]
      rfl
    · obtain rfl : u = 2 * hiddenBit := by omega
      rw [← Nat.add_mul, Nat.mul_mod_left, Nat.mul_div_cancel _ hb, Nat.zero_add,
        show e + 2 - 1 = e + 1 from rfl, Nat.pow_succ]
      ring

/-- Every magnitude is a significand at an exponent. -/
theorem exists_units_add (m : Nat) :
    ∃ e u, m = e * hiddenBit + u ∧ u < 2 * hiddenBit ∧ (e = 0 ∨ hiddenBit ≤ u) := by
  have hb : 0 < hiddenBit := by decide
  rcases Nat.lt_or_ge m hiddenBit with h | h
  · exact ⟨0, m, by omega, by omega, .inl rfl⟩
  · have hr := Nat.mod_lt m hb
    have hm := Nat.div_add_mod m hiddenBit
    have hd : 0 < m / hiddenBit := Nat.div_pos h hb
    refine ⟨m / hiddenBit - 1, hiddenBit + m % hiddenBit, ?_, by omega, .inr (by omega)⟩
    rw [← Nat.add_assoc, ← Nat.succ_mul, Nat.succ_eq_add_one, Nat.sub_add_cancel hd, Nat.mul_comm]
    exact hm.symm

theorem units_lt_succ (m : Nat) : units m < units (m + 1) := by
  obtain ⟨e, u, rfl, hu, he⟩ := exists_units_add m
  rw [Nat.add_assoc, units_add (by omega) he, units_add (by omega) (by omega)]
  exact Nat.mul_lt_mul_of_pos_right (Nat.lt_succ_self u) (Nat.two_pow_pos e)

theorem units_strictMono : StrictMono units := strictMono_nat_of_lt_succ units_lt_succ

/-- Past a significand, the values are a unit in its last place further on. -/
theorem le_units_of_lt {e u k : Nat} (hu : u ≤ 2 * hiddenBit) (he : e = 0 ∨ hiddenBit ≤ u)
    (hk : e * hiddenBit + u < k) : (u + 1) * 2 ^ e ≤ units k := by
  rcases Nat.lt_or_ge u (2 * hiddenBit) with h | h
  · rw [← units_add (e := e) (u := u + 1) (by omega) (by omega)]
    exact units_strictMono.monotone hk
  · obtain rfl : u = 2 * hiddenBit := by omega
    have hn : units ((e + 1) * hiddenBit + (hiddenBit + 1)) = (hiddenBit + 1) * 2 ^ (e + 1) :=
      units_add (by decide) (.inr (by omega))
    have hle := units_strictMono.monotone (a := (e + 1) * hiddenBit + (hiddenBit + 1)) (b := k)
      (by rw [Nat.add_mul]; omega)
    rw [hn, Nat.pow_succ] at hle
    refine Nat.le_trans ?_ hle
    rw [Nat.mul_comm (2 ^ e), ← Nat.mul_assoc]
    exact Nat.mul_le_mul_right _ (by decide)

/-- Before a significand that is not the least at its exponent, they are a unit less. -/
theorem units_add_le_of_lt {e u k : Nat} (hu : u ≤ 2 * hiddenBit) (he : e = 0 ∨ hiddenBit < u)
    (hk : k < e * hiddenBit + u) : units k + 2 ^ e ≤ u * 2 ^ e := by
  obtain ⟨v, rfl⟩ : ∃ v, u = v + 1 := ⟨u - 1, by rcases he with rfl | he <;> omega⟩
  rw [Nat.succ_mul, Nat.add_le_add_iff_right, ← units_add (e := e) (u := v) (by omega) (by omega)]
  exact units_strictMono.monotone (by omega)

/-! ## Nearness -/

section
variable {t a b : ℚ}

theorem abs_sub_lt_abs_sub_iff (h : a < b) : |t - a| < |t - b| ↔ 2 * t < a + b := by
  rw [← sq_lt_sq]
  constructor <;> intro h' <;> nlinarith

theorem abs_sub_lt_abs_sub_iff' (h : a < b) : |t - b| < |t - a| ↔ a + b < 2 * t := by
  rw [← sq_lt_sq]
  constructor <;> intro h' <;> nlinarith

theorem abs_sub_eq_abs_sub_iff (h : a < b) : |t - a| = |t - b| ↔ 2 * t = a + b := by
  rw [abs_eq_abs]
  constructor
  · rintro (h' | h') <;> linarith
  · intro h'
    exact .inr (by linarith)

end

/-- The units of a rational number. -/
def inUnits (q : ℚ) : ℚ := q * unitsPerOne

theorem abs_sub_magnitudeValue (q : ℚ) (m : Nat) :
    |q - magnitudeValue m| = |inUnits q - units m| / unitsPerOne := by
  have hp := unitsPerOne_pos
  rw [magnitudeValue, inUnits, ← abs_of_pos hp, ← abs_div, sub_div, abs_of_pos hp,
    mul_div_cancel_right₀ _ hp.ne']

/-- Nearness in units: no magnitude below or above lies past the middle. -/
theorem isNearest_iff {q : ℚ} {m : Nat} :
    IsNearest q m ↔ m ≤ infinityMagnitude ∧
      (∀ k < m, (units k + units m : ℚ) < 2 * inUnits q ∨
        2 * inUnits q = units k + units m ∧ m % 2 = 0) ∧
      ∀ k, m < k → k ≤ infinityMagnitude → 2 * inUnits q < units m + units k ∨
        2 * inUnits q = units m + units k ∧ m % 2 = 0 := by
  have hp := unitsPerOne_pos
  have lt {j k : Nat} (h : j < k) : (units j : ℚ) < units k := by exact_mod_cast units_strictMono h
  unfold IsNearest
  simp only [abs_sub_magnitudeValue, div_lt_div_iff_of_pos_right hp, div_left_inj' hp.ne']
  refine and_congr_right fun hm => ⟨fun h => ⟨fun k hk => ?_, fun k hk hi => ?_⟩, ?_⟩
  · rcases h k (by omega) (by omega) with h | ⟨h, he⟩
    · exact .inl ((abs_sub_lt_abs_sub_iff' (lt hk)).1 h)
    · exact .inr ⟨(abs_sub_eq_abs_sub_iff (lt hk)).1 h.symm, he⟩
  · rcases h k hi (by omega) with h | ⟨h, he⟩
    · exact .inl ((abs_sub_lt_abs_sub_iff (lt hk)).1 h)
    · exact .inr ⟨(abs_sub_eq_abs_sub_iff (lt hk)).1 h, he⟩
  · intro ⟨below, above⟩ k hi hne
    rcases Nat.lt_or_gt_of_ne hne with hk | hk
    · rcases below k hk with h | ⟨h, he⟩
      · exact .inl ((abs_sub_lt_abs_sub_iff' (lt hk)).2 h)
      · exact .inr ⟨((abs_sub_eq_abs_sub_iff (lt hk)).2 h).symm, he⟩
    · rcases above k hk hi with h | ⟨h, he⟩
      · exact .inl ((abs_sub_lt_abs_sub_iff (lt hk)).2 h)
      · exact .inr ⟨(abs_sub_eq_abs_sub_iff (lt hk)).2 h, he⟩

/-- **At most one magnitude is nearest.** -/
theorem IsNearest.unique {q : ℚ} {m n : Nat} (hm : IsNearest q m) (hn : IsNearest q n) : m = n := by
  have no {m n : Nat} (hm : IsNearest q m) (hn : IsNearest q n) (h : m < n) : False := by
    obtain ⟨_, -, above⟩ := isNearest_iff.1 hm
    obtain ⟨hi, below, -⟩ := isNearest_iff.1 hn
    rcases above n h hi with h1 | ⟨h1, he⟩ <;> rcases below m h with h2 | ⟨h2, ho⟩ <;> try linarith
    -- A tie of two even magnitudes has an odd one in between, which is nearer.
    have hlt : (units (m + 1) : ℚ) < units n := by exact_mod_cast units_strictMono (by omega)
    rcases above (m + 1) (by omega) (by omega) with h3 | ⟨h3, -⟩ <;> linarith
  rcases Nat.lt_trichotomy m n with h | h | h
  · exact (no hm hn h).elim
  · exact h
  · exact (no hn hm h).elim

/-- A magnitude is nearest to its own value. -/
theorem isNearest_magnitudeValue {m : Nat} (h : m ≤ infinityMagnitude) :
    IsNearest (magnitudeValue m) m := by
  have hu : inUnits (magnitudeValue m) = units m := by
    rw [inUnits, magnitudeValue, div_mul_cancel₀ _ unitsPerOne_pos.ne']
  have lt {j k : Nat} (h : j < k) : (units j : ℚ) < units k := by exact_mod_cast units_strictMono h
  refine isNearest_iff.2 ⟨h, fun k hk => .inl ?_, fun k hk _ => .inl ?_⟩ <;> rw [hu]
  · linarith [lt hk]
  · linarith [lt hk]

/-- Rounding to a whole number of units in the last place is rounding to the nearest magnitude:
`u` such units, each `2 ^ e`, are at most half a unit away from the value, and the value is not
below the least significand at `e`. -/
theorem isNearest_of_places {q : ℚ} {e u : Nat} (hu : u ≤ 2 * hiddenBit)
    (he : e = 0 ∨ hiddenBit ≤ u) (hq : e = 0 ∨ (hiddenBit * 2 ^ e : ℚ) ≤ inUnits q)
    (low : (2 * u - 1) * 2 ^ e ≤ 2 * inUnits q) (high : 2 * inUnits q ≤ (2 * u + 1) * 2 ^ e)
    (tie : 2 * inUnits q = (2 * u - 1) * 2 ^ e ∨ 2 * inUnits q = (2 * u + 1) * 2 ^ e → u % 2 = 0) :
    IsNearest q (min infinityMagnitude (e * hiddenBit + u)) := by
  have hp : (0 : ℚ) < 2 ^ e := by positivity
  have lt {j k : Nat} (h : j < k) : (units j : ℚ) < units k := by exact_mod_cast units_strictMono h
  have own : (units (e * hiddenBit + u) : ℚ) = u * 2 ^ e := by rw [units_add hu he]; push_cast; rfl
  have even (h : u % 2 = 0) : (e * hiddenBit + u) % 2 = 0 := by
    have : hiddenBit = 2 * (hiddenBit / 2) := by decide
    rw [this, Nat.mul_left_comm]
    omega
  have above (k : Nat) (hk : e * hiddenBit + u < k) :
      2 * inUnits q < units (e * hiddenBit + u) + units k ∨
        2 * inUnits q = units (e * hiddenBit + u) + units k ∧ (e * hiddenBit + u) % 2 = 0 := by
    have next : ((u + 1) * 2 ^ e : ℚ) ≤ units k := by exact_mod_cast le_units_of_lt hu he hk
    rw [own]
    by_cases h : 2 * inUnits q = u * 2 ^ e + units k
    · exact .inr ⟨h, even (tie (.inr (by linarith)))⟩
    · exact .inl (lt_of_le_of_ne (by linarith) h)
  have below (k : Nat) (hk : k < e * hiddenBit + u) :
      (units k + units (e * hiddenBit + u) : ℚ) < 2 * inUnits q ∨
        2 * inUnits q = units k + units (e * hiddenBit + u) ∧ (e * hiddenBit + u) % 2 = 0 := by
    by_cases hn : e = 0 ∨ hiddenBit < u
    · have prev : (units k + 2 ^ e : ℚ) ≤ u * 2 ^ e := by exact_mod_cast units_add_le_of_lt hu hn hk
      rw [own]
      by_cases h : 2 * inUnits q = units k + u * 2 ^ e
      · exact .inr ⟨h, even (tie (.inl (by linarith)))⟩
      · exact .inl (lt_of_le_of_ne (by linarith) (Ne.symm h))
    · obtain rfl : u = hiddenBit := by omega
      have hq := hq.resolve_left (by omega)
      left
      linarith [lt hk]
  rcases Nat.lt_or_ge infinityMagnitude (e * hiddenBit + u) with h | h
  · -- The carry runs past infinity, which is then nearer than all below it.
    rw [min_eq_left (by omega)]
    have hi := below _ h
    refine isNearest_iff.2 ⟨Nat.le_refl _, fun k hk => .inl ?_, fun k hk hk' => by omega⟩
    rcases hi with hi | ⟨hi, -⟩ <;> linarith [lt hk, lt h]
  · rw [min_eq_right h]
    exact isNearest_iff.2 ⟨h, below, fun k hk _ => above k hk⟩

end JsonCodec.Binary64
