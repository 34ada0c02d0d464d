/-
Decimal digits: the text of a number, the number of a text, and fields filled up with zeros.

The text of a number has no zero in front, so a number has one text. Long texts are read and
written in halves, since a number of many digits is costly to handle digit by digit; `value_eq` and
`ofNat_eq` say that the halves make no difference.
-/
import JsonCodec.Bytes

namespace JsonCodec.Digits

open Ascii

/-- A power of ten. -/
def tenPow (k : Nat) : Nat := Nat.pow 10 k

/-- The digits of `n` in front of `after`. -/
def ofNatOnto (n : Nat) (after : Bytes) : Bytes :=
  if n < 10 then digit n :: after else ofNatOnto (n / 10) (digit n :: after)
termination_by n
decreasing_by omega

/-- The last digits of `n` in front of `after`: one digit, doubled `doublings` times, with zeros
where `n` has fewer. -/
def blockOnto : (doublings n : Nat) → Bytes → Bytes
  | 0, n, after => digit n :: after
  | k + 1, n, after =>
    let unit := tenPow (Nat.pow 2 k)
    blockOnto k (n / unit) (blockOnto k (n % unit) after)

/-- The digits of `n` in front of `after`, taken in blocks as long as `n` has one to spare. -/
def ofNatBlocks : (doublings n : Nat) → Bytes → Bytes
  | 0, n, after => ofNatOnto n after
  | k + 1, n, after =>
    let unit := tenPow (Nat.pow 2 k)
    if n < unit then ofNatBlocks k n after
    else ofNatBlocks k (n / unit) (blockOnto k (n % unit) after)

/-- The digits of `n`; zero has one. -/
def ofNat (n : Nat) : Bytes := ofNatBlocks n.log2.log2 n []

/-- The digits of `z`, behind a minus sign below zero. -/
def ofInt (z : Int) : Bytes :=
  if z < 0 then minus :: ofNat z.natAbs else ofNat z.natAbs

/-- The digits of `z`, always behind a sign. -/
def ofIntSigned (z : Int) : Bytes :=
  if z < 0 then ofInt z else plus :: ofInt z

/-- The number that digits spell behind those of `n`. -/
def valueFrom (n : Nat) (digits : Bytes) : Nat :=
  digits.foldl (fun n b => n * 10 + digitValue b) n

/-- The number that digits spell, read in two halves, and these in halves, `halvings` times. -/
def valueHalved : (halvings : Nat) → Bytes → Nat
  | 0, digits => valueFrom 0 digits
  | k + 1, digits =>
    let back := digits.length / 2
    let front := digits.length - back
    valueHalved k (digits.take front) * tenPow back + valueHalved k (digits.drop front)

/-- Texts up to this length are read digit by digit. -/
def unhalvedLength : Nat := 64

/-- The number that digits spell. The halves come near `unhalvedLength`. -/
def value (digits : Bytes) : Nat := valueHalved (digits.length / unhalvedLength).log2 digits

theorem tenPow_succ (k : Nat) : tenPow (k + 1) = tenPow k * 10 := rfl

theorem tenPow_add (j k : Nat) : tenPow (j + k) = tenPow j * tenPow k := Nat.pow_add 10 j k

theorem tenPow_pos (k : Nat) : 0 < tenPow k := Nat.pow_pos (by decide)

/-- Twice the digits are the unit squared. -/
theorem tenPow_double (k : Nat) :
    tenPow (Nat.pow 2 (k + 1)) = tenPow (Nat.pow 2 k) * tenPow (Nat.pow 2 k) := by
  rw [← tenPow_add, ← Nat.mul_two]
  rfl

/-- A block behind the digits of a number adds its digits to that number. -/
theorem ofNatOnto_blockOnto (k : Nat) {n block : Nat} (after : Bytes) (hn : 0 < n)
    (hb : block < tenPow (Nat.pow 2 k)) :
    ofNatOnto n (blockOnto k block after) =
      ofNatOnto (n * tenPow (Nat.pow 2 k) + block) after := by
  induction k generalizing n block after with
  | zero =>
    have hb : block < 10 := hb
    have unit : tenPow (Nat.pow 2 0) = 10 := rfl
    have last : digit (n * 10 + block) = digit block := by
      simp only [digit, show (n * 10 + block) % 10 = block % 10 by omega]
    rw [unit, ofNatOnto.eq_def (n * 10 + block), if_neg (by omega), last,
      show (n * 10 + block) / 10 = n by omega]
    rfl
  | succ k ih =>
    rw [tenPow_double] at hb ⊢
    have hu := tenPow_pos (Nat.pow 2 k)
    have ahead := Nat.add_pos_left (Nat.mul_pos hn hu) (block / tenPow (Nat.pow 2 k))
    simp only [blockOnto]
    rw [ih _ hn (Nat.div_lt_of_lt_mul hb), ih _ ahead (Nat.mod_lt _ hu), Nat.add_mul,
      Nat.add_assoc, Nat.div_add_mod', Nat.mul_assoc]

/-- Digits taken in blocks are those taken one by one. -/
theorem ofNatBlocks_eq (k n : Nat) (after : Bytes) : ofNatBlocks k n after = ofNatOnto n after := by
  induction k generalizing n after with
  | zero => rfl
  | succ k ih =>
    have hu := tenPow_pos (Nat.pow 2 k)
    simp only [ofNatBlocks]
    split
    · exact ih n after
    · rw [ih, ofNatOnto_blockOnto k after (Nat.div_pos (by omega) hu) (Nat.mod_lt _ hu),
        Nat.div_add_mod']

theorem ofNat_eq (n : Nat) : ofNat n = ofNatOnto n [] := ofNatBlocks_eq _ n []

theorem ofNatOnto_eq (n : Nat) (after : Bytes) : ofNatOnto n after = ofNat n ++ after := by
  rw [ofNat_eq]
  induction n using Nat.strongRecOn generalizing after with
  | _ n ih =>
    rw [ofNatOnto.eq_def n after, ofNatOnto.eq_def n []]
    split
    · rfl
    · rw [ih (n / 10) (by omega), ih (n / 10) (by omega) [digit n], List.append_assoc]
      rfl

theorem ofNat_of_lt {n : Nat} (h : n < 10) : ofNat n = [digit n] := by
  rw [ofNat_eq, ofNatOnto, if_pos h]

theorem ofNat_of_le {n : Nat} (h : 10 ≤ n) : ofNat n = ofNat (n / 10) ++ [digit n] := by
  rw [ofNat_eq, ofNatOnto, if_neg (by omega), ofNatOnto_eq]

theorem digitValue_digit (n : Nat) : digitValue (digit n) = n % 10 := by
  have h : 0x30 + n % 10 < 2 ^ 8 := by omega
  simp only [digitValue, digit, UInt8.toNat_ofNat', Nat.mod_eq_of_lt h]
  omega

theorem isDigit_digit (n : Nat) : isDigit (digit n) = true := by
  have h : n % 10 < 10 := Nat.mod_lt _ (by decide)
  unfold digit
  generalize n % 10 = d at h
  match d, h with
  | 0, _ | 1, _ | 2, _ | 3, _ | 4, _ | 5, _ | 6, _ | 7, _ | 8, _ | 9, _ => decide

/-- The digits of `n` are worth ten times more for each digit behind them. -/
theorem valueFrom_eq (n : Nat) (digits : Bytes) :
    valueFrom n digits = n * tenPow digits.length + valueFrom 0 digits := by
  induction digits generalizing n with
  | nil => simp [valueFrom, tenPow]
  | cons b rest ih =>
    have step (n : Nat) : valueFrom n (b :: rest) = valueFrom (n * 10 + digitValue b) rest := rfl
    rw [step, step, ih, ih (0 * 10 + _), List.length_cons, tenPow_succ, Nat.zero_mul, Nat.zero_add,
      Nat.add_mul, Nat.add_assoc, Nat.mul_assoc, Nat.mul_comm 10]

theorem valueFrom_append (n : Nat) (front back : Bytes) :
    valueFrom n (front ++ back) = valueFrom (valueFrom n front) back := List.foldl_append

/-- Digits read in halves spell what they spell one by one. -/
theorem valueHalved_eq (k : Nat) (digits : Bytes) : valueHalved k digits = valueFrom 0 digits := by
  induction k generalizing digits with
  | zero => rfl
  | succ k ih =>
    have halves := valueFrom_append 0 (digits.take (digits.length - digits.length / 2))
      (digits.drop (digits.length - digits.length / 2))
    rw [List.take_append_drop, valueFrom_eq (valueFrom 0 _), List.length_drop,
      Nat.sub_sub_self (Nat.div_le_self ..)] at halves
    simp only [valueHalved]
    rw [ih, ih, halves]

theorem value_eq (digits : Bytes) : value digits = valueFrom 0 digits := valueHalved_eq _ digits

theorem value_append_singleton (digits : Bytes) (b : UInt8) :
    value (digits ++ [b]) = value digits * 10 + digitValue b := by
  rw [value_eq, value_eq, valueFrom_append]
  rfl

/-- A number is read back from its digits. -/
theorem value_ofNat (n : Nat) : value (ofNat n) = n := by
  induction n using Nat.strongRecOn with
  | _ n ih =>
    by_cases h : n < 10
    · rw [ofNat_of_lt h, ← List.nil_append [digit n], value_append_singleton, digitValue_digit]
      simp only [value_eq, valueFrom, List.foldl_nil]
      omega
    · rw [ofNat_of_le (by omega), value_append_singleton, ih (n / 10) (by omega),
        digitValue_digit]
      omega

/-- A number in digits has at least one, and a zero in front only if it stands alone. -/
def isCanonical : Bytes → Bool
  | [] => false
  | [b] => isDigit b
  | b :: rest => isDigit b && b != zero && rest.all isDigit

/-- Takes digits of `n` from the last one on, until `n` is used up and `missing` are there, or
there is no more `room`. -/
def padOnto : (room n missing : Nat) → Bytes → Bytes
  | 0, _, _, after => after
  | room + 1, n, missing, after =>
    if n = 0 ∧ missing = 0 then after
    else padOnto room (n / 10) (missing - 1) (digit n :: after)

/-- The longest field: ten digits hold every 32-bit number. -/
def fieldRoom : Nat := 10

/-- The digits of a 32-bit `n` with zeros in front up to `width`, which counts up to ten. -/
def padded (n width : Nat) : Bytes := padOnto fieldRoom n width []

end JsonCodec.Digits
