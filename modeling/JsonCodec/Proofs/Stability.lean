/-
Documents of what was read from a document (`Codec.encode_decoded`). There is one, unless only safe
integers are wanted and there is another integer (`Options.Allows`); and what is read from it is
written as the same document again.

With members in order that rests on putting in order twice being the same as doing it once
(`Options.inOrder_inOrder`): the value read back has its members in order already.
-/
import JsonCodec.Proofs.Image

namespace JsonCodec

open Encoder Ascii

/-! ## Members in order -/

namespace Options

variable {β γ : Type} (o : Options)

/-- Members of text keys in the order in which they are written. -/
def inOrder (ms : List (String × β)) : List (String × β) :=
  if o.sortKeys then ms.mergeSort fun a b => Utf8.encode a.1 ≤ Utf8.encode b.1 else ms

/-- It is the order of the members that are made of them. -/
theorem arrange_own (f : String × β → γ) (ms : List (String × β)) :
    o.arrange (ms.map fun m => (KeyText.own m.1, f m)) =
      (o.inOrder ms).map fun m => (KeyText.own m.1, f m) := by
  unfold arrange inOrder
  split
  · refine (List.map_mergeSort (f := fun m : String × β => (KeyText.own m.1, f m)) ?_).symm
    exact fun _ _ _ _ => rfl
  · rfl

theorem inOrder_inOrder (ms : List (String × β)) : o.inOrder (o.inOrder ms) = o.inOrder ms := by
  unfold inOrder
  split
  · exact List.mergeSort_of_pairwise (pairwise_bytewise (fun m : String × β => Utf8.encode m.1) ms)
  · rfl

theorem inOrder_perm (ms : List (String × β)) : (o.inOrder ms).Perm ms := by
  unfold inOrder
  split
  · exact List.mergeSort_perm _ _
  · exact .refl ms

end Options

namespace Value

/-- What is read back of an object has its members in order. -/
theorem readBack_object_inOrder (o : Options) {ms : List (String × Value)}
    (hk : (ms.map (·.1)).Nodup) :
    readBack o (.object (Members.ofText ms)) =
      .object (Members.ofText ((o.inOrder ms).map fun m => (m.1, readBack o m.2))) := by
  have hnodup : (((o.inOrder ms).map fun m => (m.1, readBack o m.2)).map (·.1)).Nodup := by
    rw [List.map_map]
    exact ((o.inOrder_perm ms).map _).nodup_iff.2 hk
  rw [readBack_object o hk, o.arrange_own, List.map_map, Grammar.objectOf]
  exact congrArg (fun ms => Value.object (Members.ofText ms)) (Members.merge_of_nodup hnodup)

/-! ## Integers -/

mutual

/-- The integers in a value, whatever the form that they are held in. -/
def integers : Value → List Int
  | .int n => [n.toInt]
  | .bigInt n => [n.value]
  | .array vs => itemIntegers vs
  | .object ms => memberIntegers ms
  | _ => []

def itemIntegers : List Value → List Int
  | [] => []
  | v :: vs => integers v ++ itemIntegers vs

def memberIntegers : Members → List Int
  | [] => []
  | (_, v) :: ms => integers v ++ memberIntegers ms

end

theorem itemIntegers_eq (vs : List Value) : itemIntegers vs = vs.flatMap integers := by
  induction vs with
  | nil => rfl
  | cons v vs ih => rw [itemIntegers, ih, List.flatMap_cons]

theorem memberIntegers_ofText (ms : List (String × Value)) :
    memberIntegers (Members.ofText ms) = ms.flatMap fun m => m.2.integers := by
  induction ms with
  | nil => rfl
  | cons m ms ih =>
    rw [Members.ofText] at ih ⊢
    rw [List.map_cons, memberIntegers, ih, List.flatMap_cons]

end Value

namespace Options

/-- Whether the integers in a value are safe ones, where no others may be written. -/
def Allows (o : Options) (v : Value) : Prop :=
  o.strictInteger = true → ∀ z ∈ v.integers, -Limits.maxSafeInteger ≤ z ∧ z ≤ Limits.maxSafeInteger

variable {o : Options}

theorem allows_of_integers_eq_nil {v : Value} (h : v.integers = []) : o.Allows v := by
  intro _ z hz
  rw [h] at hz
  cases hz

theorem allows_array {vs : List Value} : o.Allows (.array vs) ↔ ∀ v ∈ vs, o.Allows v := by
  simp only [Allows, Value.integers, Value.itemIntegers_eq, List.mem_flatMap]
  constructor
  · exact fun h v hv hs z hz => h hs z ⟨v, hv, hz⟩
  · rintro h hs z ⟨v, hv, hz⟩
    exact h v hv hs z hz

theorem allows_object {ms : List (String × Value)} :
    o.Allows (.object (Members.ofText ms)) ↔ ∀ m ∈ ms, o.Allows m.2 := by
  simp only [Allows, Value.integers, Value.memberIntegers_ofText, List.mem_flatMap]
  constructor
  · exact fun h m hm hs z hz => h hs z ⟨m, hm, hz⟩
  · rintro h hs z ⟨m, hm, hz⟩
    exact h m hm hs z hz

end Options

/-! ## Writing what was read back -/

variable {o : Options} {budget : Nat} {p : Path} {v : Value} {b : Bytes}

/-- `v` has a text, and the value that is read back of it has the same. -/
def Stable (o : Options) (budget : Nat) (p : Path) (v : Value) : Prop :=
  ∃ b, AllGive o budget p v b ∧ AllGive o budget p (v.readBack o) b

theorem Stable.of_leaf (hv : v.sortKeys = v) (h : AllGive o budget p v b) : Stable o budget p v := by
  refine ⟨b, h, ?_⟩
  rw [Value.readBack, hv, ite_self]
  exact h

theorem stable_array {vs : List Value} (hd : p.depth < Limits.maxDepth)
    (h : ∀ v ∈ vs, Stable o budget p.deeper v) : Stable o (budget + 1) p (.array vs) := by
  choose! B hB hback using h
  have harray : AllGive o (budget + 1) p (.array (vs.map id)) _ := allGive_array hd hB
  rw [List.map_id] at harray
  refine ⟨_, harray, ?_⟩
  rw [Value.readBack_array]
  exact allGive_array hd hback

theorem stable_object {ms : List (String × Value)} (hk : (ms.map (·.1)).Nodup)
    (hd : p.depth < Limits.maxDepth) (h : ∀ m ∈ ms, Stable o budget p.deeper m.2) :
    Stable o (budget + 1) p (.object (Members.ofText ms)) := by
  choose! B hB hback using h
  have hobject : AllGive o (budget + 1) p (.object (Members.ofText (ms.map fun m => (m.1, m.2)))) _ :=
    allGive_object hd hB
  have hagain : AllGive o (budget + 1) p
      (.object (Members.ofText ((o.inOrder ms).map fun m => (m.1, m.2.readBack o)))) _ :=
    allGive_object hd fun m hm => hback m ((o.inOrder_perm ms).mem_iff.1 hm)
  rw [List.map_id', o.arrange_own] at hobject
  rw [o.arrange_own, o.inOrder_inOrder] at hagain
  refine ⟨_, hobject, ?_⟩
  rw [Value.readBack_object_inOrder o hk]
  exact hagain

/-- What becomes of a value where there are levels enough for it. -/
def Answered (o : Options) (budget : Nat) (p : Path) (v : Value) : Prop :=
  o.Allows v ∧ Stable o budget p v ∨ ¬o.Allows v ∧ AllRefuse o budget p v .integerOutOfRange

theorem Answered.written_or_refused (h : Answered o budget p v) :
    (∃ b, AllGive o budget p v b) ∨ AllRefuse o budget p v .integerOutOfRange :=
  h.imp (fun ⟨_, b, hb, _⟩ => ⟨b, hb⟩) (·.2)

theorem Answered.stable (h : Answered o budget p v) (ha : o.Allows v) : Stable o budget p v := by
  rcases h with ⟨-, hs⟩ | ⟨hn, -⟩
  · exact hs
  · exact absurd ha hn

theorem Answered.allRefuse (h : Answered o budget p v) (ha : ¬o.Allows v) :
    AllRefuse o budget p v .integerOutOfRange := by
  rcases h with ⟨hy, -⟩ | ⟨-, hr⟩
  · exact absurd hy ha
  · exact hr

/-- A container is answered as what is inside it is: one integer is enough for it to be refused. -/
theorem answered_container {ι : Type} {xs : List ι} {val : ι → Value}
    (ha : o.Allows v ↔ ∀ x ∈ xs, o.Allows (val x))
    (stable : (∀ x ∈ xs, Stable o budget p.deeper (val x)) → Stable o (budget + 1) p v)
    (refuse : (∀ x ∈ xs, (∃ b, AllGive o budget p.deeper (val x) b) ∨
        AllRefuse o budget p.deeper (val x) .integerOutOfRange) →
      (∃ x ∈ xs, AllRefuse o budget p.deeper (val x) .integerOutOfRange) →
      AllRefuse o (budget + 1) p v .integerOutOfRange)
    (h : ∀ x ∈ xs, Answered o budget p.deeper (val x)) : Answered o (budget + 1) p v := by
  by_cases hall : ∀ x ∈ xs, o.Allows (val x)
  · exact .inl ⟨ha.2 hall, stable fun x hx => (h x hx).stable (hall x hx)⟩
  · have hno : ¬o.Allows v := fun hv => hall (ha.1 hv)
    simp only [not_forall] at hall
    obtain ⟨x, hx, hn⟩ := hall
    exact .inr ⟨hno, refuse (fun y hy => (h y hy).written_or_refused) ⟨x, hx, (h x hx).allRefuse hn⟩⟩

theorem answered_array {vs : List Value} (hd : p.depth < Limits.maxDepth)
    (h : ∀ v ∈ vs, Answered o budget p.deeper v) : Answered o (budget + 1) p (.array vs) :=
  answered_container Options.allows_array (stable_array hd) (allRefuse_array hd) h

theorem answered_object {ms : List (String × Value)} (hk : (ms.map (·.1)).Nodup)
    (hd : p.depth < Limits.maxDepth) (h : ∀ m ∈ ms, Answered o budget p.deeper m.2) :
    Answered o (budget + 1) p (.object (Members.ofText ms)) :=
  answered_container Options.allows_object (stable_object hk hd) (allRefuse_object hd) h

/-- A leaf is answered as the options say of its text. -/
theorem answered_leaf {x : Except EncodeError Bytes} (hv : v.sortKeys = v)
    (ht : ∀ {σ : Type} (e : Encoder σ), e.options = o → e.text (budget + 1) p v = TextM.lift x)
    (hx : o.Allows v ∧ (∃ b, x = .ok b) ∨ ¬o.Allows v ∧ x = .error .integerOutOfRange) :
    Answered o (budget + 1) p v := by
  rcases hx with ⟨ha, b, rfl⟩ | ⟨hn, rfl⟩
  · refine .inl ⟨ha, .of_leaf (b := b) hv fun e he => ?_⟩
    rw [ht e he]
    exact gives_pure b
  · refine .inr ⟨hn, fun {σ} e he => ?_⟩
    rw [ht e he]
    exact refuses_refuse _

theorem allows_int (o : Options) (n : Int64) :
    o.Allows (.int n) ∧ (∃ b, Scalar.int o n = .ok b) ∨
      ¬o.Allows (.int n) ∧ Scalar.int o n = .error .integerOutOfRange := by
  have hallows : o.Allows (.int n) ↔ (o.strictInteger = true → Scalar.isSafe n.toInt = true) := by
    simp [Options.Allows, Value.integers, Scalar.isSafe]
  rw [hallows, Scalar.int]
  cases o.strictInteger <;> cases Scalar.isSafe n.toInt <;> simp

theorem allows_bigInt (o : Options) {n : BigInt} (h : fitsInt64 n.value = false) :
    o.Allows (.bigInt n) ∧ (∃ b, Scalar.bigInt o n = .ok b) ∨
      ¬o.Allows (.bigInt n) ∧ Scalar.bigInt o n = .error .integerOutOfRange := by
  have hout : ¬(-Limits.maxSafeInteger ≤ n.value ∧ n.value ≤ Limits.maxSafeInteger) := by
    intro hsafe
    rw [Limits.maxSafeInteger] at hsafe
    rw [fitsInt64_iff.2 (by omega)] at h
    cases h
  have hallows : o.Allows (.bigInt n) ↔ ¬o.strictInteger = true := by
    simp only [Options.Allows, Value.integers, List.mem_singleton, forall_eq, hout, imp_false]
  rw [hallows, Scalar.bigInt]
  cases o.strictInteger <;> simp

/-- **Where there are levels enough for a well-formed value, it is written if its integers are
allowed, and what is read back of it is written alike.** -/
theorem answered_of_wellFormed (h : v.WellFormed) (hd : p.depth + v.depth ≤ Limits.maxDepth)
    (hb : v.depth < budget) : Answered o budget p v := by
  obtain ⟨budget, rfl⟩ : ∃ k, budget = k + 1 := ⟨budget - 1, by omega⟩
  have plain {v : Value} (hi : v.integers = []) {x : Bytes} :
      o.Allows v ∧ (∃ b, (Except.ok x : Except EncodeError Bytes) = .ok b) ∨
        ¬o.Allows v ∧ (Except.ok x : Except EncodeError Bytes) = .error .integerOutOfRange :=
    .inl ⟨Options.allows_of_integers_eq_nil hi, x, rfl⟩
  induction h generalizing budget p with
  | @array vs _ ih =>
    rw [Value.depth] at hd hb
    refine answered_array (by omega) fun v hv => ?_
    have hv' : v.depth ≤ Value.itemDepth vs := Value.itemDepth_le_iff.1 (Nat.le_refl _) v hv
    obtain ⟨k, rfl⟩ : ∃ k, budget = k + 1 := ⟨budget - 1, by omega⟩
    exact ih v hv (by simp only [Path.deeper]; omega) k (by omega)
  | @object ms hk _ ih =>
    rw [Value.depth] at hd hb
    refine answered_object hk (by omega) fun m hm => ?_
    have hm' : m.2.depth ≤ Value.memberDepth (Members.ofText ms) :=
      Value.memberDepth_le_iff.1 (Nat.le_refl _) m hm
    obtain ⟨k, rfl⟩ : ∃ k, budget = k + 1 := ⟨budget - 1, by omega⟩
    exact ih m hm (by simp only [Path.deeper]; omega) k (by omega)
  | int n => exact answered_leaf rfl (fun _ he => he ▸ rfl) (allows_int o n)
  | bigInt hout => exact answered_leaf rfl (fun _ he => he ▸ rfl) (allows_bigInt o hout)
  | @float x hx =>
    refine answered_leaf (x := .ok x.text) rfl (fun e _ => ?_) (plain rfl)
    rw [text, textWith, Scalar.float, if_pos hx]
  | bool b => cases b <;> exact answered_leaf rfl (fun _ _ => rfl) (plain rfl)
  | null => exact answered_leaf rfl (fun _ _ => rfl) (plain rfl)
  | str text =>
    exact answered_leaf (x := .ok (Quoted.literal o.asciiOnly text)) rfl (fun _ he => he ▸ rfl)
      (plain rfl)

namespace Codec

/-- **Documents of any size are read as the well-formed values within the limit of depth, and as all
of these. Such a value is written unless it has an integer that is not allowed; and what is read from
its document, the value with its members in the order written, is written as the same document again.
(A document that is not too large is read just so.)** -/
theorem encode_decoded (v : Value) :
    (∀ input, input.length ≤ Limits.maxInputSize →
      Document.decode input = Document.decodeAnySize input) ∧
    ((∃ input, Document.decodeAnySize input = .ok v) ↔ v.WellFormed ∧ v.depth ≤ Limits.maxDepth) ∧
    ∀ input mask o, Document.decodeAnySize input = .ok v → Options.ofMask? mask = .ok o →
      (o.Allows v → ∃ b, encode mask v = .ok b ∧
        Document.decodeAnySize b = .ok (v.readBack o) ∧ encode mask (v.readBack o) = .ok b) ∧
      (¬o.Allows v → encode mask v = .error (.encode .integerOutOfRange)) := by
  refine ⟨fun _ => Document.decode_eq_decodeAnySize, Document.exists_decodeAnySize_iff,
    fun input mask o hread hm => ?_⟩
  obtain ⟨hv, hd⟩ := Document.wellFormed_of_decodeAnySize hread
  have hlevels : ({} : Path).depth + v.depth ≤ Limits.maxDepth := (Nat.zero_add _).trans_le hd
  have hbudget : v.depth < Encoder.budget := Nat.lt_of_le_of_lt hd (by decide)
  have hanswer : Answered o Encoder.budget {} v := answered_of_wellFormed hv hlevels hbudget
  have hencode (w : Value) := encodeWith_eq hm .empty (none : Option (Hook Unit)) () w
  constructor
  · intro ha
    obtain ⟨b, hb, hback⟩ := hanswer.stable ha
    refine ⟨document o b, ?_, Document.decodeAnySize_of_allGive hv hb, ?_⟩
    · rw [encode, hencode, hb _ rfl]
    · rw [encode, hencode, hback _ rfl]
  · intro hn
    rw [encode, hencode, hanswer.allRefuse hn _ rfl]
    rfl

end Codec

end JsonCodec
