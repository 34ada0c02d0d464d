/-
How deep a document nests: how many brackets are open at once at the most, counted without regard
to values (`nesting`).

The levels that the grammar asks for are no other thing: a value has no more brackets open at once
than it has levels (`closes_denotes`), and as many levels as that are enough (`denotes_of_deepest`).
-/
import JsonCodec.Proofs.Lines

namespace JsonCodec

open Ascii Grammar

/-- How many brackets are open at once in a document at the most. -/
def nesting (input : Bytes) : Nat := (Place.outside 0).deepest input

/-- An opening bracket is at the place `i`, and so many brackets are open around it. -/
def OpensAt (input : Bytes) (around i : Nat) : Prop :=
  ∃ before b after, input = before ++ b :: after ∧ before.length = i ∧ isOpening b = true ∧
    (Place.outside 0).run before = Place.outside around

/-- At `i` is the leftmost opening bracket with so many brackets open around it. -/
structure FirstOpensAt (input : Bytes) (around i : Nat) : Prop where
  opensAt : OpensAt input around i
  le_of_opensAt : ∀ j, OpensAt input around j → i ≤ j

namespace Place

variable {s : Place} {a b bytes inside : Bytes} {x left right : UInt8} {k m n : Nat}

/-! ## Brackets of bytes that are put together -/

theorem IsFlat.deepest_append (h : IsFlat s a) (b : Bytes) : s.deepest (a ++ b) = s.deepest b := by
  rw [Place.deepest_append, h.run_eq, h.deepest_eq]
  exact Nat.max_eq_right (s.brackets_le_deepest b)

theorem deepest_opening (h : isOpening x = true) (bytes : Bytes) :
    (outside k).deepest (x :: bytes) = (outside (k + 1)).deepest bytes := by
  rw [deepest, step_opening h]
  exact Nat.max_eq_right (Nat.le_trans (Nat.le_succ k) ((outside (k + 1)).brackets_le_deepest bytes))

/-- What opens a bracket needs a level for it. -/
theorem exists_of_deepest_opening_le (h : isOpening x = true)
    (hd : (outside k).deepest (x :: bytes) ≤ k + m) :
    ∃ l, m = l + 1 ∧ (outside (k + 1)).deepest bytes ≤ k + 1 + l := by
  rw [deepest_opening h] at hd
  have hle : k + 1 ≤ (outside (k + 1)).deepest bytes := brackets_le_deepest (outside (k + 1)) bytes
  exact ⟨m - 1, by omega, by omega⟩

/-- Bytes that close what they open, with no more than `n` brackets open at once. -/
structure Closes (n : Nat) (bytes : Bytes) : Prop where
  run_eq : ∀ k, (outside k).run bytes = outside k
  deepest_le : ∀ k, (outside k).deepest bytes ≤ k + n

theorem closes_of_isFlat (h : ∀ k, IsFlat (outside k) bytes) : Closes n bytes where
  run_eq k := (h k).run_eq
  deepest_le k := (h k).deepest_eq.trans_le (Nat.le_add_right k n)

theorem IsToken.closes (h : IsToken bytes) : Closes n bytes :=
  closes_of_isFlat fun k => (h.quiet k).toIsFlat

theorem Closes.append (ha : Closes n a) (hb : Closes n b) : Closes n (a ++ b) where
  run_eq k := by rw [run_append, ha.run_eq, hb.run_eq]
  deepest_le k := by
    rw [Place.deepest_append, ha.run_eq]
    exact Nat.max_le.2 ⟨ha.deepest_le k, hb.deepest_le k⟩

theorem Closes.bracket (hl : isOpening left = true) (hr : isClosing right = true)
    (h : Closes n inside) : Closes (n + 1) (left :: (inside ++ [right])) where
  run_eq k := by
    rw [run_cons, step_opening hl, run_append, h.run_eq, run_cons, step_closing hr]
    rfl
  deepest_le k := by
    have hinside := h.deepest_le (k + 1)
    rw [deepest_opening hl, Place.deepest_append, h.run_eq, deepest, step_closing hr, deepest]
    simp only
    omega

/-- Behind bytes that close what they open, it is as it was in front. -/
theorem Closes.deepest_append_le_iff (h : Closes n a) :
    (outside k).deepest (a ++ b) ≤ m ↔
      (outside k).deepest a ≤ m ∧ (outside k).deepest b ≤ m := by
  rw [Place.deepest_append, h.run_eq]
  exact Nat.max_le

theorem isFlat_blanks (h : Blanks bytes) : IsFlat (outside k) bytes := by
  refine isFlat_of_forall fun x hx => isFlat_of_step ?_
  have hblank := h x hx
  simp only [isBlank, Bool.or_eq_true, beq_iff_eq] at hblank
  rcases hblank with ((rfl | rfl) | rfl) | rfl <;> rfl

theorem isFlat_key {name : String} (h : Key bytes name) : IsFlat (outside k) bytes := by
  cases h with
  | mk hb h ha => exact ((isFlat_blanks hb).append (isQuiet_text h).toIsFlat).append (isFlat_blanks ha)

/-- Bytes that open so many brackets, and never had more open at once. -/
theorem firstOpensAt_of_run_eq (hx : isOpening x = true) (hrun : (outside 0).run a = outside n)
    (hd : (outside 0).deepest a ≤ n) : FirstOpensAt (a ++ x :: b) n a.length where
  opensAt := ⟨a, x, b, rfl, rfl, hx, hrun⟩
  le_of_opensAt := by
    rintro _ ⟨before, y, after, heq, rfl, hy, hbefore⟩
    -- A bracket further left would open one too many within `a`.
    refine Nat.le_of_not_lt fun hlt => ?_
    rcases List.append_eq_append_iff.1 heq with ⟨more, rfl, -⟩ | ⟨more, rfl, hmore⟩
    · rw [List.length_append] at hlt
      omega
    · cases more with
      | nil =>
        rw [List.append_nil] at hlt
        exact absurd hlt (Nat.lt_irrefl _)
      | cons z more =>
        obtain ⟨rfl, -⟩ := List.cons.inj hmore
        have hle : n + 1 ≤ (outside (n + 1)).deepest more := brackets_le_deepest (outside (n + 1)) more
        rw [deepest_append, hbefore, deepest_opening hy] at hd
        omega

theorem isFlat_comma : IsFlat (outside k) [comma] := isFlat_of_step rfl

theorem isFlat_colon : IsFlat (outside k) [colon] := isFlat_of_step rfl

end Place

open Place

variable {size : Bytes → Nat} {n m k : Nat} {bytes : Bytes} {v : Value} {vs : List Value}
  {ms : List (String × Value)}

/-! ## Levels -/

mutual

/-- A value closes what it opens, within its levels. -/
theorem closes_denotes : ∀ {n : Nat} {bytes : Bytes} {v : Value}, Denotes size n bytes v →
    Closes n bytes
  | _, _, _, .null => (isToken_word (by decide) (List.all_eq_true.1 (by decide))).closes
  | _, _, _, .true => (isToken_word (by decide) (List.all_eq_true.1 (by decide))).closes
  | _, _, _, .false => (isToken_word (by decide) (List.all_eq_true.1 (by decide))).closes
  | _, _, _, .number literal _ => (isToken_number literal).closes
  | _, _, _, .text h => (isToken_text h).closes
  | _, _, _, .emptyArray hb => (closes_of_isFlat fun _ => isFlat_blanks hb).bracket rfl rfl
  | _, _, _, .array h => (closes_items h).bracket rfl rfl
  | _, _, _, .emptyObject hb => (closes_of_isFlat fun _ => isFlat_blanks hb).bracket rfl rfl
  | _, _, _, .object h => (closes_fields h).bracket rfl rfl

theorem closes_spaced : ∀ {n : Nat} {bytes : Bytes} {v : Value}, Spaced size n bytes v →
    Closes n bytes
  | _, _, _, .mk hb h ha =>
    ((closes_of_isFlat fun _ => isFlat_blanks hb).append (closes_denotes h)).append
      (closes_of_isFlat fun _ => isFlat_blanks ha)

theorem closes_items : ∀ {n : Nat} {bytes : Bytes} {vs : List Value}, Items size n bytes vs →
    Closes n bytes
  | _, _, _, .one h => closes_spaced h
  | _, _, _, .more h hr =>
    (closes_spaced h).append ((closes_of_isFlat fun _ => isFlat_comma).append (closes_items hr))

theorem closes_fields : ∀ {n : Nat} {bytes : Bytes} {ms : List (String × Value)},
    Fields size n bytes ms → Closes n bytes
  | _, _, _, .one hk h =>
    (closes_of_isFlat fun _ => isFlat_key hk).append
      ((closes_of_isFlat fun _ => isFlat_colon).append (closes_spaced h))
  | _, _, _, .more hk h hr =>
    (closes_of_isFlat fun _ => isFlat_key hk).append
      ((closes_of_isFlat fun _ => isFlat_colon).append
        ((closes_spaced h).append ((closes_of_isFlat fun _ => isFlat_comma).append (closes_fields hr))))

end

theorem deepest_bracketed_le {left right : UInt8} {inside : Bytes} (hl : isOpening left = true)
    (h : Closes n inside) (hd : (outside k).deepest (left :: (inside ++ [right])) ≤ k + m) :
    ∃ l, m = l + 1 ∧ (outside (k + 1)).deepest inside ≤ k + 1 + l := by
  obtain ⟨l, rfl, hinside⟩ := exists_of_deepest_opening_le hl hd
  exact ⟨l, rfl, (h.deepest_append_le_iff.1 hinside).1⟩

mutual

/-- As many levels are enough as brackets are open at once. -/
theorem denotes_of_deepest : ∀ {n : Nat} {bytes : Bytes} {v : Value} {k m : Nat},
    Denotes size n bytes v → (outside k).deepest bytes ≤ k + m → Denotes size m bytes v
  | _, _, _, _, _, .null, _ => .null
  | _, _, _, _, _, .true, _ => .true
  | _, _, _, _, _, .false, _ => .false
  | _, _, _, _, _, .number literal h, _ => .number literal h
  | _, _, _, _, _, .text h, _ => .text h
  | _, _, _, _, _, .emptyArray hb, hd => by
    obtain ⟨l, rfl, -⟩ := exists_of_deepest_opening_le rfl hd
    exact .emptyArray hb
  | _, _, _, _, _, .array h, hd => by
    obtain ⟨l, rfl, hinside⟩ := deepest_bracketed_le rfl (closes_items h) hd
    exact .array (items_of_deepest h hinside)
  | _, _, _, _, _, .emptyObject hb, hd => by
    obtain ⟨l, rfl, -⟩ := exists_of_deepest_opening_le rfl hd
    exact .emptyObject hb
  | _, _, _, _, _, .object h, hd => by
    obtain ⟨l, rfl, hinside⟩ := deepest_bracketed_le rfl (closes_fields h) hd
    exact .object (fields_of_deepest h hinside)

theorem spaced_of_deepest : ∀ {n : Nat} {bytes : Bytes} {v : Value} {k m : Nat},
    Spaced size n bytes v → (outside k).deepest bytes ≤ k + m → Spaced size m bytes v
  | _, _, _, _, _, .mk hb h ha, hd => by
    rw [List.append_assoc, (isFlat_blanks hb).deepest_append,
      (closes_denotes h).deepest_append_le_iff] at hd
    exact .mk hb (denotes_of_deepest h hd.1) ha

theorem items_of_deepest : ∀ {n : Nat} {bytes : Bytes} {vs : List Value} {k m : Nat},
    Items size n bytes vs → (outside k).deepest bytes ≤ k + m → Items size m bytes vs
  | _, _, _, _, _, .one h, hd => .one (spaced_of_deepest h hd)
  | _, _, _, _, _, .more h hr, hd => by
    rw [(closes_spaced h).deepest_append_le_iff, ← List.singleton_append,
      isFlat_comma.deepest_append] at hd
    exact .more (spaced_of_deepest h hd.1) (items_of_deepest hr hd.2)

theorem fields_of_deepest : ∀ {n : Nat} {bytes : Bytes} {ms : List (String × Value)} {k m : Nat},
    Fields size n bytes ms → (outside k).deepest bytes ≤ k + m → Fields size m bytes ms
  | _, _, _, _, _, .one hk h, hd => by
    rw [(isFlat_key hk).deepest_append, ← List.singleton_append, isFlat_colon.deepest_append] at hd
    exact .one hk (spaced_of_deepest h hd)
  | _, _, _, _, _, .more hk h hr, hd => by
    rw [(isFlat_key hk).deepest_append, ← List.singleton_append, isFlat_colon.deepest_append,
      (closes_spaced h).deepest_append_le_iff, ← List.singleton_append,
      isFlat_comma.deepest_append] at hd
    exact .more hk (spaced_of_deepest h hd.1) (fields_of_deepest hr hd.2)

end

/-- **A document that has a value at some depth has it at its nesting, and at no lesser depth.** -/
theorem spaced_iff_nesting_le (h : Spaced size n bytes v) :
    Spaced size m bytes v ↔ nesting bytes ≤ m := by
  have hzero (l : Nat) : (outside 0).deepest bytes ≤ 0 + l ↔ nesting bytes ≤ l := by
    rw [Nat.zero_add, nesting]
  constructor
  · exact fun h => (hzero m).1 ((closes_spaced h).deepest_le 0)
  · exact fun hd => spaced_of_deepest h ((hzero m).2 hd)

end JsonCodec
