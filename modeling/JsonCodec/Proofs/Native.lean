/-
Values that documents are made of: native ones, with each key once in an object and with floats that
have a number (`Value.WellFormed`). Such a value is a tree already, and what its document says is
the value itself, or the value with its members in order where they are written in order
(`WellFormed.meaning_eq`).
-/
import JsonCodec.Proofs.Encoder.Meaning

namespace JsonCodec

namespace Value

/-- A value of which a document says all: native, with integers held as a reader holds them, floats
that have a number, and text keys, each once in an object. -/
inductive WellFormed : Value → Prop
  | null : WellFormed .null
  | bool (b : Bool) : WellFormed (.bool b)
  | int (n : Int64) : WellFormed (.int n)
  | bigInt {n : BigInt} (h : fitsInt64 n.value = false) : WellFormed (.bigInt n)
  | float {x : Binary64} (h : x.isFinite = true) : WellFormed (.float x)
  | str (text : String) : WellFormed (.str text)
  | array {vs : List Value} (h : ∀ v ∈ vs, WellFormed v) : WellFormed (.array vs)
  | object {ms : List (String × Value)} (hk : (ms.map (·.1)).Nodup) (h : ∀ m ∈ ms, WellFormed m.2) :
    WellFormed (.object (Members.ofText ms))

mutual

/-- How many containers stand inside one another, empty ones too. -/
def depth : Value → Nat
  | .array vs => itemDepth vs + 1
  | .object ms => memberDepth ms + 1
  | _ => 0

/-- The depth of the deepest item. -/
def itemDepth : List Value → Nat
  | [] => 0
  | v :: vs => max (depth v) (itemDepth vs)

/-- The depth of the deepest value. -/
def memberDepth : Members → Nat
  | [] => 0
  | (_, v) :: ms => max (depth v) (memberDepth ms)

end

/-- The bytes of a text key. -/
def keyBytes : Value → Bytes
  | .str text => Utf8.encode text
  | _ => []

mutual

/-- The value with the members of every object in the order of the bytes of their keys. -/
def sortKeys : Value → Value
  | .array vs => .array (sortItems vs)
  | .object ms => .object ((sortMembers ms).mergeSort fun a b => keyBytes a.1 ≤ keyBytes b.1)
  | v => v

/-- Items, each in order inside. -/
def sortItems : List Value → List Value
  | [] => []
  | v :: vs => sortKeys v :: sortItems vs

/-- Members as they stand, each value in order inside. -/
def sortMembers : Members → Members
  | [] => []
  | (key, v) :: ms => (key, sortKeys v) :: sortMembers ms

end

theorem itemDepth_le_iff {vs : List Value} {n : Nat} :
    itemDepth vs ≤ n ↔ ∀ v ∈ vs, v.depth ≤ n := by
  induction vs with
  | nil => simp [itemDepth]
  | cons v vs ih => rw [itemDepth, Nat.max_le, ih, List.forall_mem_cons]

theorem memberDepth_le_iff {ms : List (String × Value)} {n : Nat} :
    memberDepth (Members.ofText ms) ≤ n ↔ ∀ m ∈ ms, m.2.depth ≤ n := by
  induction ms with
  | nil => simp [memberDepth, Members.ofText]
  | cons m ms ih =>
    rw [Members.ofText] at ih ⊢
    rw [List.map_cons, memberDepth, Nat.max_le, ih, List.forall_mem_cons]

theorem sortItems_eq_map (vs : List Value) : sortItems vs = vs.map sortKeys := by
  induction vs with
  | nil => rfl
  | cons v vs ih => rw [sortItems, ih, List.map_cons]

theorem sortMembers_ofText (ms : List (String × Value)) :
    sortMembers (Members.ofText ms) = Members.ofText (ms.map fun m => (m.1, m.2.sortKeys)) := by
  induction ms with
  | nil => rfl
  | cons m ms ih =>
    rw [Members.ofText] at ih
    rw [Members.ofText, List.map_cons, sortMembers, ih]
    rfl

/-- What is read back of a well-formed value that was written with options. -/
def readBack (o : Options) (v : Value) : Value := if o.sortKeys then v.sortKeys else v

theorem readBack_of_sortKeys {o : Options} (h : o.sortKeys = true) : readBack o = sortKeys :=
  funext fun _ => if_pos h

theorem readBack_of_not_sortKeys {o : Options} (h : o.sortKeys = false) : readBack o = id :=
  funext fun _ => if_neg (by simp [h])

theorem readBack_array (o : Options) (vs : List Value) :
    readBack o (.array vs) = .array (vs.map (readBack o)) := by
  cases h : o.sortKeys with
  | true => rw [readBack_of_sortKeys h, sortKeys, sortItems_eq_map]
  | false => rw [readBack_of_not_sortKeys h, List.map_id, id]

/-- Members in the order written, with what is read back of their values. -/
theorem readBack_object (o : Options) {ms : List (String × Value)} (hk : (ms.map (·.1)).Nodup) :
    readBack o (.object (Members.ofText ms)) =
      Grammar.objectOf ((o.arrange (ms.map fun m => (KeyText.own m.1, readBack o m.2))).map
        fun m => (m.1.name, m.2)) := by
  cases h : o.sortKeys with
  | true =>
    let members := ms.map fun m => (m.1, m.2.sortKeys)
    let le (a b : String × Value) : Bool := Utf8.encode a.1 ≤ Utf8.encode b.1
    let sorted := members.mergeSort le
    have hwritten : (o.arrange (ms.map fun m => (KeyText.own m.1, m.2.sortKeys))).map
        (fun m => (m.1.name, m.2)) = sorted := by
      have hbytes : ∀ a ∈ ms.map (fun m => (KeyText.own m.1, m.2.sortKeys)),
          ∀ b ∈ ms.map (fun m => (KeyText.own m.1, m.2.sortKeys)),
          decide (a.1.bytes ≤ b.1.bytes) = le (a.1.name, a.2) (b.1.name, b.2) := by
        intro a ha b hb
        obtain ⟨m, -, rfl⟩ := List.mem_map.1 ha
        obtain ⟨n, -, rfl⟩ := List.mem_map.1 hb
        rfl
      rw [Options.arrange, if_pos h, List.map_mergeSort (s := le) hbytes, List.map_map]
      rfl
    have hsorted : (Members.ofText members).mergeSort (fun a b => keyBytes a.1 ≤ keyBytes b.1) =
        Members.ofText sorted := by
      refine (List.map_mergeSort (f := fun m : String × Value => (Value.str m.1, m.2)) ?_).symm
      exact fun _ _ _ _ => rfl
    have hnodup : (sorted.map (·.1)).Nodup := by
      have hperm : (sorted.map (·.1)).Perm (members.map (·.1)) := (List.mergeSort_perm _ _).map _
      have hkeys : members.map (·.1) = ms.map (·.1) := List.map_map ..
      rw [hperm.nodup_iff, hkeys]
      exact hk
    rw [readBack_of_sortKeys h, sortKeys, sortMembers_ofText, hsorted, hwritten, Grammar.objectOf,
      Members.merge_of_nodup hnodup]
  | false =>
    have hwritten : (ms.map fun m => (KeyText.own m.1, m.2)).map (fun m => (m.1.name, m.2)) = ms := by
      rw [List.map_map]
      exact List.map_id' ms
    rw [readBack_of_not_sortKeys h, Options.arrange, if_neg (by simp [h])]
    simp only [id]
    rw [hwritten, Grammar.objectOf, Members.merge_of_nodup hk]

namespace WellFormed

variable {v w : Value} {g : Graph} {o : Options}

/-- A well-formed value is a tree. -/
theorem unfolds (h : v.WellFormed) (l : Lookup) : l.Unfolds v v := by
  induction h with
  | array _ ih => exact .array_self ih
  | object _ _ ih => exact .object_map (fun m : String × Value => .str m.1) ih
  | _ => exact .leaf rfl

theorem of_leads {l : Lookup} (h : v.WellFormed) (hw : l.Leads v w) : w.WellFormed := by
  cases h with
  | array h => exact h w hw.mem_of_array
  | object hk h =>
    obtain ⟨m, hm, rfl⟩ := hw.exists_of_object
    obtain ⟨n, hn, rfl⟩ := List.mem_map.1 hm
    exact h n hn
  | _ =>
    cases hw with
    | found hf => cases hf

theorem isReadable (h : v.WellFormed) (l : Lookup) : l.isReadable v = true := by
  cases h with
  | float hx => rw [Lookup.isReadable, hx, Bool.true_or]
  | _ => rfl

/-- All inside a well-formed value has a text of the grammar. -/
theorem readable (h : v.WellFormed) (l : Lookup) : l.Readable v := by
  intro w hw
  have hwell : w.WellFormed := by
    induction hw with
    | refl => exact h
    | tail _ hstep ih => exact ih.of_leads hstep
  exact hwell.isReadable l

theorem noFragment (h : v.WellFormed) (l : Lookup) : l.NoFragment v :=
  .of_closed WellFormed h (fun _ _ => of_leads) fun _ hf => nomatch hf

/-- **A well-formed value means itself, with its members in the order written.** -/
theorem meaning_eq (h : v.WellFormed) (g : Graph) (o : Options) :
    v.meaning g o = .ok (readBack o v) := by
  have leaf {v : Value} (hm : v.meaning g o = .ok v) (hs : v.sortKeys = v) :
      v.meaning g o = .ok (readBack o v) := by
    rw [hm, readBack, hs, ite_self]
  induction h with
  | @array vs _ ih =>
    have harray : (Value.array (vs.map id)).meaning g o = .ok (.array (vs.map (readBack o))) :=
      meaning_array ih
    rwa [List.map_id, ← readBack_array] at harray
  | @object ms hk _ ih =>
    rw [readBack_object o hk]
    exact meaning_object (fun m : String × Value => .str m.1) (fun m _ => rfl) ih
  | @bigInt n h =>
    have hn : ofInt n.value = .bigInt n := ofInt_eq_bigInt_iff.2 ⟨h, rfl⟩
    exact leaf (congrArg Except.ok hn) rfl
  | _ => exact leaf rfl rfl

end WellFormed

end Value

end JsonCodec
