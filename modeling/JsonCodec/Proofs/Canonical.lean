/-
Documents with their members in order as a canonical form: two well-formed values are written as the
same bytes just if they are equal but for the order of members (`Codec.encode_eq_iff_reordered`).

That the bytes tell the values apart is known from reading them. For the other direction it is enough
that members in order do not depend on the order in which they came, since no key is there twice.
-/
import JsonCodec.Proofs.Stability

namespace JsonCodec

namespace Utf8

/-- A text is known by its bytes. -/
theorem encode_injective {a b : String} (h : encode a = encode b) : a = b := by
  rw [← String.toList_inj]
  simp only [encode] at h
  generalize a.toList = as at h
  generalize b.toList = bs at h
  have front (c : Char) (rest : Bytes) : String.utf8EncodeChar c ++ rest ≠ [] := by
    obtain ⟨lead, tail, hc, -⟩ := exists_sequence c
    simp [hc]
  induction as generalizing bs with
  | nil =>
    cases bs with
    | nil => rfl
    | cons d bs => exact absurd h.symm (front d _)
  | cons c as ih =>
    cases bs with
    | nil => exact absurd h (front c _)
    | cons d bs =>
      rw [List.flatMap_cons, List.flatMap_cons] at h
      have hnext := next?_encodeChar c (as.flatMap String.utf8EncodeChar)
      rw [h, next?_encodeChar] at hnext
      obtain ⟨hd, hrest⟩ := Prod.mk.inj (Option.some.inj hnext)
      rw [hd, ih bs hrest.symm]

end Utf8

namespace Value

/-- Equal but for the order of the members of objects, at whatever level. -/
inductive Reordered : Value → Value → Prop
  | refl (v : Value) : Reordered v v
  | array {items : List (Value × Value)} (h : ∀ x ∈ items, Reordered x.1 x.2) :
    Reordered (.array (items.map (·.1))) (.array (items.map (·.2)))
  /-- Under each key there are two values, and either object has its members in an order of its
  own. -/
  | object {ms ns : Members} {common : List (Value × Value × Value)}
    (hm : ms.Perm (common.map fun x => (x.1, x.2.1))) (hn : ns.Perm (common.map fun x => (x.1, x.2.2)))
    (h : ∀ x ∈ common, Reordered x.2.1 x.2.2) : Reordered (.object ms) (.object ns)

variable {v w : Value}

namespace WellFormed

theorem of_mem_array {vs : List Value} (h : WellFormed (.array vs)) (hv : v ∈ vs) : v.WellFormed := by
  cases h with
  | array h => exact h v hv

theorem of_mem_object {ms : Members} {m : Value × Value} (h : WellFormed (.object ms)) (hm : m ∈ ms) :
    m.2.WellFormed := by
  cases h with
  | object hk h =>
    obtain ⟨n, hn, rfl⟩ := List.mem_map.1 hm
    exact h n hn

end WellFormed

/-! ## One order for all orders -/

theorem sortMembers_eq_map (ms : Members) :
    sortMembers ms = ms.map fun m => (m.1, m.2.sortKeys) := by
  induction ms with
  | nil => rfl
  | cons m ms ih => rw [sortMembers, ih, List.map_cons]

/-- Members that differ in their keys come into the same order, however they stood. -/
theorem mergeSort_eq_of_perm {ms : List (String × Value)} {ns : Members} (hk : (ms.map (·.1)).Nodup)
    (h : (Members.ofText ms).Perm ns) :
    (Members.ofText ms).mergeSort (fun a b => keyBytes a.1 ≤ keyBytes b.1) =
      ns.mergeSort fun a b => keyBytes a.1 ≤ keyBytes b.1 := by
  let le (a b : Value × Value) : Bool := keyBytes a.1 ≤ keyBytes b.1
  have hsorted (ms : Members) : (ms.mergeSort le).Pairwise fun a b => le a b = true :=
    pairwise_bytewise (fun m => keyBytes m.1) ms
  have hperm := ((List.mergeSort_perm (Members.ofText ms) le).trans h).trans
    (List.mergeSort_perm ns le).symm
  refine hperm.eq_of_pairwise (fun a b ha hb hab hba => ?_) (hsorted _) (hsorted _)
  rw [List.mem_mergeSort] at ha hb
  obtain ⟨m, hm, rfl⟩ := List.mem_map.1 ha
  obtain ⟨n, hn, rfl⟩ := List.mem_map.1 (h.mem_iff.2 hb)
  simp only [le, decide_eq_true_eq] at hab hba
  have hname : m.1 = n.1 := Utf8.encode_injective (List.le_antisymm hab hba)
  rw [List.inj_on_of_nodup_map hk hm hn hname]

theorem Reordered.sortKeys_eq (h : v.Reordered w) (hv : v.WellFormed) (hw : w.WellFormed) :
    v.sortKeys = w.sortKeys := by
  induction h with
  | refl v => rfl
  | @array items _ ih =>
    rw [sortKeys, sortKeys, sortItems_eq_map, sortItems_eq_map, List.map_map, List.map_map]
    refine congrArg Value.array (List.map_congr_left fun x hx => ?_)
    exact ih x hx (hv.of_mem_array (List.mem_map_of_mem hx)) (hw.of_mem_array (List.mem_map_of_mem hx))
  | @object ms ns common hm hn _ ih =>
    have hvalues : ∀ x ∈ common, x.2.1.sortKeys = x.2.2.sortKeys := fun x hx =>
      ih x hx (hv.of_mem_object (m := (x.1, x.2.1)) (hm.mem_iff.2 (List.mem_map_of_mem hx)))
        (hw.of_mem_object (m := (x.1, x.2.2)) (hn.mem_iff.2 (List.mem_map_of_mem hx)))
    have hperm : (sortMembers ms).Perm (sortMembers ns) := by
      have hcommon : (common.map fun x => (x.1, x.2.1.sortKeys)) =
          common.map fun x => (x.1, x.2.2.sortKeys) :=
        List.map_congr_left fun x hx => by rw [hvalues x hx]
      have hms := hm.map fun m : Value × Value => (m.1, m.2.sortKeys)
      have hns := hn.map fun m : Value × Value => (m.1, m.2.sortKeys)
      rw [List.map_map] at hms hns
      rw [sortMembers_eq_map, sortMembers_eq_map]
      exact hms.trans (hcommon ▸ hns.symm)
    cases hv with
    | @object ms hk _ =>
      have hkeys : ((ms.map fun m => (m.1, m.2.sortKeys)).map (·.1)).Nodup := by
        rwa [List.map_map]
      rw [sortKeys, sortKeys]
      rw [sortMembers_ofText] at hperm ⊢
      exact congrArg Value.object (mergeSort_eq_of_perm hkeys hperm)

/-! ## One order for two values -/

/-- Lists that are mapped to the same pair off. -/
theorem exists_pairs {α β : Type} {f : α → β} {as bs : List α} (h : as.map f = bs.map f) :
    ∃ pairs : List (α × α), as = pairs.map (·.1) ∧ bs = pairs.map (·.2) ∧
      ∀ x ∈ pairs, f x.1 = f x.2 := by
  induction as generalizing bs with
  | nil => exact ⟨[], rfl, List.map_eq_nil_iff.1 h.symm, List.forall_mem_nil _⟩
  | cons a as ih =>
    cases bs with
    | nil => cases h
    | cons b bs =>
      obtain ⟨hab, hrest⟩ := List.cons.inj h
      obtain ⟨pairs, rfl, rfl, hpairs⟩ := ih hrest
      exact ⟨(a, b) :: pairs, rfl, rfl, List.forall_mem_cons.2 ⟨hab, hpairs⟩⟩

theorem exists_array_of_sortKeys {vs : List Value} (h : sortKeys (.array vs) = w.sortKeys) :
    ∃ ws, w = .array ws ∧ vs.map sortKeys = ws.map sortKeys := by
  cases w with
  | array ws =>
    rw [sortKeys, sortKeys, sortItems_eq_map, sortItems_eq_map] at h
    exact ⟨ws, rfl, Value.array.inj h⟩
  | _ => cases h

/-- Objects that are the same in order have members that are the same in some order. -/
theorem exists_object_of_sortKeys {ms : Members} (h : sortKeys (.object ms) = w.sortKeys) :
    ∃ ns ms' ns', w = .object ns ∧ ms.Perm ms' ∧ ns.Perm ns' ∧
      (ms'.map fun m => (m.1, m.2.sortKeys)) = ns'.map fun m => (m.1, m.2.sortKeys) := by
  cases w with
  | object ns =>
    let le (a b : Value × Value) : Bool := keyBytes a.1 ≤ keyBytes b.1
    have hmap (ms : Members) : (sortMembers ms).mergeSort le =
        (ms.mergeSort le).map fun m => (m.1, m.2.sortKeys) := by
      rw [sortMembers_eq_map]
      refine (List.map_mergeSort (f := fun m : Value × Value => (m.1, m.2.sortKeys)) ?_).symm
      exact fun _ _ _ _ => rfl
    refine ⟨ns, ms.mergeSort le, ns.mergeSort le, rfl, (List.mergeSort_perm ms le).symm,
      (List.mergeSort_perm ns le).symm, ?_⟩
    rw [← hmap, ← hmap]
    exact Value.object.inj h
  | _ => cases h

theorem eq_of_sortKeys_of_depth (hv : v.depth = 0) (h : v.sortKeys = w.sortKeys) : v = w := by
  have hself : v.sortKeys = v := by
    cases v with
    | array vs | object ms => cases hv
    | _ => rfl
  rw [hself] at h
  cases w with
  | array ws | object ns =>
    rw [h] at hv
    cases hv
  | _ => exact h

/-- Values that are the same in order differ in the order of members only. -/
theorem reordered_of_sortKeys_eq (hv : v.WellFormed) (h : v.sortKeys = w.sortKeys) :
    v.Reordered w := by
  induction hv generalizing w with
  | @array vs _ ih =>
    obtain ⟨ws, rfl, hs⟩ := exists_array_of_sortKeys h
    obtain ⟨items, rfl, rfl, hitems⟩ := exists_pairs hs
    exact .array fun x hx => ih x.1 (List.mem_map_of_mem hx) (hitems x hx)
  | @object ms _ _ ih =>
    obtain ⟨ns, ms', ns', rfl, hm, hn, hs⟩ := exists_object_of_sortKeys h
    obtain ⟨pairs, rfl, rfl, hpairs⟩ := exists_pairs hs
    have hkey : ∀ x ∈ pairs, x.1.1 = x.2.1 := fun x hx => (Prod.mk.inj (hpairs x hx)).1
    have hright : pairs.map (·.2) = pairs.map fun x => (x.1.1, x.2.2) :=
      List.map_congr_left fun x hx => by rw [hkey x hx]
    refine @Reordered.object _ _ (pairs.map fun x => (x.1.1, x.1.2, x.2.2)) ?_ ?_ ?_
    · rwa [List.map_map]
    · rw [List.map_map]
      exact hright ▸ hn
    · refine List.forall_mem_map.2 fun x hx => ?_
      obtain ⟨m, hm', hx'⟩ := List.mem_map.1 (hm.mem_iff.2 (List.mem_map_of_mem hx))
      have hvalue : x.1.2 = m.2 := by rw [← hx']
      rw [hvalue]
      exact ih m hm' (hvalue ▸ (Prod.mk.inj (hpairs x hx)).2)
  | _ =>
    rw [eq_of_sortKeys_of_depth rfl h]
    exact .refl _

end Value

namespace Codec

variable {o : Options} {mask : UInt32} {v w : Value}

theorem encode_of_allGive {b : Bytes} (hm : Options.ofMask? mask = .ok o)
    (hb : AllGive o Encoder.budget {} v b) : encode mask v = .ok (Encoder.document o b) := by
  rw [encode, encodeWith_eq hm, hb _ rfl]

/-- A well-formed value is written, is read back with its members in the order written, and is then
written as the same document. -/
theorem exists_encode_readBack (hm : Options.ofMask? mask = .ok o) (hs : o.strictInteger = false)
    (hv : v.WellFormed) (hd : v.depth ≤ Limits.maxDepth) :
    ∃ b, encode mask v = .ok b ∧ Document.decodeAnySize b = .ok (v.readBack o) ∧
      encode mask (v.readBack o) = .ok b := by
  have hanswer : Answered o Encoder.budget {} v :=
    answered_of_wellFormed hv ((Nat.zero_add _).trans_le hd) (Nat.lt_of_le_of_lt hd (by decide))
  obtain ⟨b, hb, hback⟩ := hanswer.stable fun hstrict => absurd hstrict (by simp [hs])
  exact ⟨_, encode_of_allGive hm hb, Document.decodeAnySize_of_allGive hv hb,
    encode_of_allGive hm hback⟩

/-- **With members in order, two well-formed values within the limit of depth are both written, and
as the same bytes just if they are equal but for the order of members.** -/
theorem encode_eq_iff_reordered (hm : Options.ofMask? mask = .ok o) (hk : o.sortKeys = true)
    (hs : o.strictInteger = false) (hv : v.WellFormed) (hw : w.WellFormed)
    (hdv : v.depth ≤ Limits.maxDepth) (hdw : w.depth ≤ Limits.maxDepth) :
    ∃ b c, encode mask v = .ok b ∧ encode mask w = .ok c ∧ (b = c ↔ v.Reordered w) := by
  obtain ⟨b, hb, hreadv, hbackv⟩ := exists_encode_readBack hm hs hv hdv
  obtain ⟨c, hc, hreadw, hbackw⟩ := exists_encode_readBack hm hs hw hdw
  rw [Value.readBack_of_sortKeys hk] at hreadv hbackv hreadw hbackw
  refine ⟨b, c, hb, hc, fun hbc => ?_, fun h => ?_⟩
  · rw [hbc, hreadw] at hreadv
    exact Value.reordered_of_sortKeys_eq hv (Except.ok.inj hreadv).symm
  · rw [h.sortKeys_eq hv hw, hbackw] at hbackv
    exact (Except.ok.inj hbackv).symm

/-- Two members that change places, inside one of them two more. -/
theorem encode_eq_iff_reordered_swapped :
    let v := Value.object (Members.ofText
      [("a", .object (Members.ofText [("é", .null), ("b", .int 1)])), ("é", .float ⟨0x8000000000000000⟩)])
    let w := Value.object (Members.ofText
      [("é", .float ⟨0x8000000000000000⟩), ("a", .object (Members.ofText [("b", .int 1), ("é", .null)]))])
    ∃ b c, encode 0x1020 v = .ok b ∧ encode 0x1020 w = .ok c ∧ (b = c ↔ v.Reordered w) := by
  intro v w
  have inner {ms : List (String × Value)} (hk : (ms.map (·.1)).Nodup)
      (h : ∀ m ∈ ms, m.2 = .null ∨ m.2 = .int 1) : (Value.object (Members.ofText ms)).WellFormed := by
    refine .object hk fun m hm => ?_
    rcases h m hm with h | h <;> rw [h]
    · exact .null
    · exact .int 1
  have hfloat : (Value.float ⟨0x8000000000000000⟩).WellFormed := .float (by decide)
  have hv : v.WellFormed := .object (by decide)
    (List.forall_mem_cons.2 ⟨inner (by decide) (by simp), List.forall_mem_singleton.2 hfloat⟩)
  have hw : w.WellFormed := .object (by decide)
    (List.forall_mem_cons.2 ⟨hfloat, List.forall_mem_singleton.2 (inner (by decide) (by simp))⟩)
  exact encode_eq_iff_reordered (o := { sortKeys := true, asciiOnly := true }) rfl rfl rfl hv hw
    (by decide) (by decide)

end Codec

end JsonCodec
