/-
The values that documents are read as: the well-formed ones that are nested no deeper than the limit,
and all of these (`exists_decodeAnySize_iff`).

What a document denotes is well-formed for reasons that lie apart: members are merged, so no key is
there twice; an integer is kept whole only where 64 bits do not hold it; and a number that rounds to
infinity has no value. That a well-formed value is read from some document is seen by writing it.
-/
import JsonCodec.Proofs.RoundTrip

namespace JsonCodec

open Grammar NumberLiteral

namespace Members

variable {ms : List (String × Value)}

/-- Merging makes up no member. -/
theorem merge_subset : merge ms ⊆ ms := by
  induction ms with
  | nil => exact List.Subset.refl _
  | cons m ms ih =>
    obtain ⟨name, v⟩ := m
    rw [merge]
    refine List.cons_subset.2 ⟨?_, fun n hn => ?_⟩
    · cases hl : (merge ms).lookup name with
      | none => exact List.mem_cons_self
      | some w =>
        obtain ⟨before, after, hmerge, -⟩ := List.lookup_eq_some_iff.1 hl
        have hw : (name, w) ∈ merge ms := hmerge ▸ List.mem_append_right _ List.mem_cons_self
        exact List.mem_cons_of_mem _ (ih hw)
    · exact List.mem_cons_of_mem _ (ih (List.mem_of_mem_filter hn))

/-- Merged members have each key once. -/
theorem nodup_merge (ms : List (String × Value)) : ((merge ms).map (·.1)).Nodup := by
  induction ms with
  | nil => exact List.nodup_nil
  | cons m ms ih =>
    obtain ⟨name, v⟩ := m
    rw [merge, List.map_cons, List.nodup_cons]
    refine ⟨fun hmem => ?_, ih.sublist (List.filter_sublist.map _)⟩
    obtain ⟨n, hn, hname⟩ := List.mem_map.1 hmem
    have hne := (List.mem_filter.1 hn).2
    simp [hname] at hne

end Members

namespace Grammar

variable {size : Bytes → Nat} {n : Nat} {inside bytes : Bytes} {v : Value} {P : Value → Prop}

theorem of_spaced (hP : ∀ bytes v, Denotes size n bytes v → P v) (h : Spaced size n bytes v) : P v := by
  cases h with
  | mk _ h _ => exact hP _ _ h

theorem forall_of_items (hP : ∀ bytes v, Denotes size n bytes v → P v) {inside : Bytes}
    {vs : List Value} : Items size n inside vs → ∀ v ∈ vs, P v
  | .one h => List.forall_mem_singleton.2 (of_spaced hP h)
  | .more h hr => List.forall_mem_cons.2 ⟨of_spaced hP h, forall_of_items hP hr⟩

theorem forall_of_fields (hP : ∀ bytes v, Denotes size n bytes v → P v) {inside : Bytes}
    {ms : List (String × Value)} : Fields size n inside ms → ∀ m ∈ ms, P m.2
  | .one _ h => List.forall_mem_singleton.2 (of_spaced hP h)
  | .more _ h hr => List.forall_mem_cons.2 ⟨of_spaced hP h, forall_of_fields hP hr⟩

theorem wellFormed_of_number {literal : Number} (h : literal.Denotes size v) : v.WellFormed := by
  cases h with
  | int _ _ => exact .int _
  | bigInt hi out hk =>
    rw [← ofInt_integer hi out] at hk
    refine .bigInt ?_
    rw [Digits.ofInt_injective hk]
    exact out
  | float _ _ _ fin => exact .float fin

theorem depth_of_number {literal : Number} (h : literal.Denotes size v) : v.depth = 0 := by
  cases h <;> rfl

/-- **What the grammar gives a value to gives it a well-formed one, no deeper than the levels.** -/
theorem wellFormed_of_denotes (h : Denotes size n bytes v) : v.WellFormed ∧ v.depth ≤ n := by
  induction n generalizing bytes v with
  | zero =>
    cases h with
    | null => exact ⟨.null, Nat.le_refl _⟩
    | true => exact ⟨.bool _, Nat.le_refl _⟩
    | false => exact ⟨.bool _, Nat.le_refl _⟩
    | number _ h => exact ⟨wellFormed_of_number h, (depth_of_number h).le⟩
    | text h => exact ⟨.str _, Nat.le_refl _⟩
  | succ n ih =>
    have hP : ∀ bytes v, Denotes size n bytes v → v.WellFormed ∧ v.depth ≤ n := fun _ _ => ih
    cases h with
    | null => exact ⟨.null, Nat.zero_le _⟩
    | true => exact ⟨.bool _, Nat.zero_le _⟩
    | false => exact ⟨.bool _, Nat.zero_le _⟩
    | number _ h => exact ⟨wellFormed_of_number h, (depth_of_number h).trans_le (Nat.zero_le _)⟩
    | text h => exact ⟨.str _, Nat.zero_le _⟩
    | emptyArray _ => exact ⟨.array (List.forall_mem_nil _), Nat.succ_le_succ (Nat.zero_le _)⟩
    | array h =>
      have hall := forall_of_items hP h
      exact ⟨.array fun v hv => (hall v hv).1,
        Nat.succ_le_succ (Value.itemDepth_le_iff.2 fun v hv => (hall v hv).2)⟩
    | emptyObject _ =>
      exact ⟨@Value.WellFormed.object [] .nil (List.forall_mem_nil _),
        Nat.succ_le_succ (Nat.zero_le _)⟩
    | object h =>
      have hall := forall_of_fields hP h
      exact ⟨.object (Members.nodup_merge _) fun m hm => (hall m (Members.merge_subset hm)).1,
        Nat.succ_le_succ (Value.memberDepth_le_iff.2 fun m hm =>
          (hall m (Members.merge_subset hm)).2)⟩

end Grammar

namespace Document

variable {input : Bytes} {v : Value}

/-- Decodes a document of any size. -/
def decodeAnySize (input : Bytes) : Except Diagnostic Value :=
  decodeWithin { maxInputSize := input.length } input

/-- Within the limit, it makes no difference that there is one. -/
theorem decode_eq_decodeAnySize (h : input.length ≤ Limits.maxInputSize) :
    decode input = decodeAnySize input := by
  have hsize : ¬Limits.maxInputSize < input.length := Nat.not_lt.2 h
  simp only [decode, decodeAnySize, decodeWithin, read, if_neg hsize, Nat.lt_irrefl, ite_false]

theorem decodeAnySize_eq_ok_iff : decodeAnySize input = .ok v ↔
    input ≠ [] ∧ Spaced exponentSize Limits.maxDepth input v := by
  rw [decodeAnySize, decodeWithin_eq_ok_iff, read_eq_ok_iff]
  simp only [Nat.le_refl, true_and]

theorem wellFormed_of_decodeAnySize (h : decodeAnySize input = .ok v) :
    v.WellFormed ∧ v.depth ≤ Limits.maxDepth :=
  of_spaced (fun _ _ => wellFormed_of_denotes) (decodeAnySize_eq_ok_iff.1 h).2

/-- What all encoders give is read, whatever its size. -/
theorem decodeAnySize_of_allGive {o : Options} {b : Bytes} (hv : v.WellFormed)
    (hb : AllGive o Encoder.budget {} v b) :
    decodeAnySize (Encoder.document o b) = .ok (v.readBack o) :=
  decodeAnySize_eq_ok_iff.2 (Codec.spaced_document (Codec.denotes_of_allGive hv hb))

/-- **The values that documents are read as are the well-formed ones within the limit of depth.** -/
theorem exists_decodeAnySize_iff :
    (∃ input, decodeAnySize input = .ok v) ↔ v.WellFormed ∧ v.depth ≤ Limits.maxDepth := by
  constructor
  · rintro ⟨input, h⟩
    exact wellFormed_of_decodeAnySize h
  · rintro ⟨hv, hd⟩
    have hsettled : Settled {} Encoder.budget {} v :=
      settled_of_wellFormed rfl hv Encoder.budget {} (Nat.zero_le _) (by decide)
    obtain ⟨b, hb⟩ := hsettled.exists_allGive ((Nat.zero_add _).trans_le hd)
    exact ⟨_, decodeAnySize_of_allGive hv hb⟩

end Document

end JsonCodec
