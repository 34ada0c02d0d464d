/-
Collecting members: searched one by one or by the index, a collector stores as `Members.put` does
(`toList_insert`), so what it holds at the end is what was stored, merged
(`toMembers_insertAll`).

Once the index is made, it tells the place of every key; that the keys differ is what lets it be
made from the entries alone.
-/
import JsonCodec.Document.Collector
import JsonCodec.Proofs.Members

namespace JsonCodec.Collector

variable {es : List (String × Value)}

/-- The place of a key. -/
def place? (es : List (String × Value)) (key : String) : Option Nat := es.findIdx? (·.1 == key)

/-- Another value under the key of an entry. -/
def withValue (value : Value) (e : String × Value) : String × Value := (e.1, value)

/-- Stores over the entry of an equal key, or else at the end. -/
def store (es : List (String × Value)) (key : String) (value : Value) : List (String × Value) :=
  match place? es key with
  | some place => es.modify place (withValue value)
  | none => es ++ [(key, value)]

/-! ## Entries -/

theorem place?_cons (k key : String) (v : Value) :
    place? ((k, v) :: es) key = if k = key then some 0 else (place? es key).map (· + 1) := by
  simp [place?, List.findIdx?_cons]

theorem place?_append_singleton (k key : String) (v : Value) :
    place? (es ++ [(k, v)]) key =
      (place? es key).or (if k = key then some es.length else none) := by
  simp only [place?, List.findIdx?_append, List.findIdx?_cons, List.findIdx?_nil, beq_iff_eq]
  split <;> simp

/-- Changing a value moves no key. -/
theorem map_fst_modify (place : Nat) (value : Value) :
    (es.modify place (withValue value)).map (·.1) = es.map (·.1) := by
  induction es generalizing place with
  | nil => simp
  | cons e es ih =>
    cases place with
    | zero => rfl
    | succ place => rw [List.modify_succ_cons, List.map_cons, ih, List.map_cons]

theorem place?_congr {es' : List (String × Value)} (h : es.map (·.1) = es'.map (·.1))
    (key : String) : place? es key = place? es' key := by
  have fst (es : List (String × Value)) : place? es key = (es.map (·.1)).findIdx? (· == key) := by
    rw [List.findIdx?_map]
    rfl
  rw [fst, fst, h]

theorem place?_eq_none_iff {key : String} : place? es key = none ↔ key ∉ es.map (·.1) := by
  simp only [place?, List.findIdx?_eq_none_iff, List.mem_map]
  grind

theorem store_eq_put (key : String) (value : Value) :
    store es key value = Members.put key value es := by
  induction es with
  | nil => rfl
  | cons e es ih =>
    obtain ⟨k, v⟩ := e
    by_cases h : k = key
    · simp [store, place?_cons, Members.put, h, withValue]
    · simp only [store, place?_cons, Members.put, if_neg h, ← ih]
      cases place? es key with
      | none => rfl
      | some place => rfl

/-! ## The index -/

/-- The step of `indexOf`. -/
def addPlace (index : Std.HashMap String Nat) (e : (String × Value) × Nat) :
    Std.HashMap String Nat := index.insert e.1.1 e.2

theorem getElem?_foldl_addPlace (h : (es.map (·.1)).Nodup) (index : Std.HashMap String Nat)
    (n : Nat) (key : String) :
    ((es.zipIdx n).foldl addPlace index)[key]? =
      match place? es key with
      | some place => some (n + place)
      | none => index[key]? := by
  induction es generalizing n index with
  | nil => rfl
  | cons e es ih =>
    obtain ⟨k, v⟩ := e
    rw [List.map_cons, List.nodup_cons] at h
    rw [List.zipIdx_cons, List.foldl_cons, ih h.2, place?_cons]
    by_cases hk : k = key
    · subst hk
      rw [place?_eq_none_iff.2 h.1, if_pos rfl]
      simp [addPlace]
    · rw [if_neg hk]
      cases place? es key with
      | some place => simp only [Option.map_some, Nat.add_assoc, Nat.add_comm 1]
      | none =>
        simp only [Option.map_none, addPlace]
        rw [Std.HashMap.getElem?_insert, if_neg (by simpa using hk)]

/-- The index of entries tells the places of their keys, if these differ. -/
theorem getElem?_indexOf {entries : Array (String × Value)}
    (h : (entries.toList.map (·.1)).Nodup) (key : String) :
    (indexOf entries)[key]? = place? entries.toList key := by
  have hfold : indexOf entries = (entries.toList.zipIdx 0).foldl addPlace ∅ := by
    rw [indexOf, ← Array.foldl_toList, Array.toList_zipIdx]
    rfl
  rw [hfold, getElem?_foldl_addPlace h]
  cases place? entries.toList key with
  | some place => simp
  | none => simp

/-- The keys differ, and the index, if there is one, tells their places. -/
structure IsSound (c : Collector) : Prop where
  nodup : (c.entries.toList.map (·.1)).Nodup
  places : c.index.isEmpty = false → ∀ key : String, c.index[key]? = place? c.entries.toList key

theorem isSound_empty : IsSound {} where
  nodup := List.nodup_nil
  places h := by simp at h

variable {c : Collector}

theorem nodup_store (h : (es.map (·.1)).Nodup) (key : String) (value : Value) :
    ((store es key value).map (·.1)).Nodup := by
  rw [store]
  split
  · rwa [map_fst_modify]
  · next hn =>
    rw [List.map_append, List.nodup_append]
    refine ⟨h, by simp, ?_⟩
    have := place?_eq_none_iff.1 hn
    grind

theorem toList_setAt (entries : Array (String × Value)) (place : Nat) (value : Value) :
    (setAt entries place value).toList = entries.toList.modify place (withValue value) :=
  Array.toList_modify

theorem toList_insertBySearch (c : Collector) (key : String) (value : Value) :
    (c.insertBySearch key value).entries.toList = store c.entries.toList key value ∧
      (c.insertBySearch key value).index = c.index := by
  have hp : c.entries.findIdx? (·.1 == key) = place? c.entries.toList key := by
    rw [place?, ← List.findIdx?_toArray, Array.toArray_toList]
  rw [insertBySearch, hp, store]
  cases place? c.entries.toList key with
  | some place => exact ⟨toList_setAt .., rfl⟩
  | none => exact ⟨Array.toList_push, rfl⟩

theorem toList_insertByIndex (h : c.IsSound) (key : String) (value : Value) :
    (c.insertByIndex key value).entries.toList = store c.entries.toList key value ∧
      ∀ k : String, (c.insertByIndex key value).index[k]? =
        place? (store c.entries.toList key value) k := by
  have hindex (k : String) : (if c.index.isEmpty then indexOf c.entries else c.index)[k]? =
      place? c.entries.toList k := by
    split
    · exact getElem?_indexOf h.nodup k
    · next he => exact h.places (by simpa using he) k
  simp only [insertByIndex]
  generalize (if c.index.isEmpty then indexOf c.entries else c.index) = index at hindex
  rw [hindex, store]
  cases hp : place? c.entries.toList key with
  | some place =>
    refine ⟨toList_setAt .., fun k => ?_⟩
    rw [hindex, place?_congr (map_fst_modify place value)]
  | none =>
    refine ⟨Array.toList_push, fun k => ?_⟩
    simp only [place?_append_singleton, Std.HashMap.getElem?_insert, hindex, beq_iff_eq,
      Array.length_toList]
    split
    · next hk =>
      subst hk
      rw [hp]
      rfl
    · rw [Option.or_none]

/-- Storing keeps a collector sound, whichever way the place is found. -/
theorem toList_insert (h : c.IsSound) (key : String) (value : Value) :
    (c.insert key value).entries.toList = store c.entries.toList key value ∧
      (c.insert key value).IsSound := by
  rw [insert]
  split
  · next hs =>
    obtain ⟨he, hi⟩ := toList_insertBySearch c key value
    refine ⟨he, ?_, fun hf => ?_⟩
    · rw [he]
      exact nodup_store h.nodup key value
    · rw [Bool.and_eq_true] at hs
      rw [hi, hs.1] at hf
      cases hf
  · obtain ⟨he, hi⟩ := toList_insertByIndex h key value
    refine ⟨he, ?_, fun _ => ?_⟩
    · rw [he]
      exact nodup_store h.nodup key value
    · rw [he]
      exact hi

/-- Stores members one after the other. -/
def insertAll (c : Collector) (ms : List (String × Value)) : Collector :=
  ms.foldl (fun c (key, value) => c.insert key value) c

theorem toList_insertAll (h : c.IsSound) (ms : List (String × Value)) :
    (c.insertAll ms).entries.toList =
      ms.foldl (fun done m => Members.put m.1 m.2 done) c.entries.toList := by
  induction ms generalizing c with
  | nil => rfl
  | cons m ms ih =>
    obtain ⟨he, hs⟩ := toList_insert h m.1 m.2
    rw [List.foldl_cons, ← store_eq_put, ← he]
    exact ih hs

/-- **What has been collected is what was stored, merged.** -/
theorem toMembers_insertAll_empty (ms : List (String × Value)) :
    (insertAll {} ms).toMembers = Members.ofText (Members.merge ms) := by
  rw [Members.merge_eq_foldl]
  exact congrArg Members.ofText (toList_insertAll isSound_empty ms)

/-- **Collecting is storing.** Whichever way each place is found, a collector ends with the members
that storing one after the other leads to: the keys in the order in which they first came, each
with the value that came last. -/
theorem toMembers_insertAll (ms : List (String × Value)) :
    (insertAll {} ms).toMembers = Members.ofList (Members.ofText ms) ∧
      Members.keys (insertAll {} ms).toMembers = (ms.map (·.1)).eraseDups.map .str ∧
      ∀ name, Members.get? (insertAll {} ms).toMembers name = ms.reverse.lookup name := by
  rw [toMembers_insertAll_empty]
  refine ⟨(Members.ofList_ofText ms).symm, ?_, fun name => ?_⟩
  · rw [Members.keys_ofText, Members.map_fst_merge]
  · rw [Members.get?_ofText, Members.lookup_merge]

end JsonCodec.Collector
