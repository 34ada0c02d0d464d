/-
Members with text keys. Storing members one after the other leaves each key once, at the place of
its first member (`map_fst_merge`) and with the value of its last (`lookup_merge`).
-/
import Mathlib.Data.List.Induction
import JsonCodec.Value.Members

namespace JsonCodec.Members

/-- Members with text keys. -/
def ofText (ms : List (String × Value)) : Members := ms.map fun (name, v) => (.str name, v)

/-- Each key once, at the place of its first member and with the value of its last. -/
def merge : List (String × Value) → List (String × Value)
  | [] => []
  | (name, v) :: rest =>
    (name, ((merge rest).lookup name).getD v) :: (merge rest).filter (·.1 != name)

/-- Stores over the first member of an equal key, or else at the end. -/
def put (name : String) (value : Value) : List (String × Value) → List (String × Value)
  | [] => [(name, value)]
  | (k, v) :: rest => if k = name then (k, value) :: rest else (k, v) :: put name value rest

variable {name other : String} {value : Value} {ms : List (String × Value)}

theorem str_beq_str (a b : String) : (Value.str a == Value.str b) = (a == b) := by
  change Value.beq (.str a) (.str b) = _
  rw [Value.beq]

/-- Members of text keys are stored as `put` does. -/
theorem insert_ofText (ms : List (String × Value)) (name : String) (value : Value) :
    (Members.insert (ofText ms) (.str name) value).2 = ofText (put name value ms) := by
  induction ms with
  | nil => rfl
  | cons m ms ih =>
    obtain ⟨k, v⟩ := m
    simp only [ofText, List.map_cons, Members.insert, str_beq_str, put] at ih ⊢
    by_cases h : k = name
    · simp [h]
    · simp [h, ih]

theorem lookup_put_self (ms : List (String × Value)) :
    (put name value ms).lookup name = some value := by
  induction ms with
  | nil => simp [put]
  | cons m ms ih =>
    rw [put]
    split
    · next h => simp [h]
    · next h => rw [List.lookup_cons, beq_false_of_ne (Ne.symm h), ih]

theorem lookup_put_other (h : other ≠ name) (ms : List (String × Value)) :
    (put name value ms).lookup other = ms.lookup other := by
  induction ms with
  | nil => simp [put, List.lookup_cons, beq_false_of_ne h]
  | cons m ms ih =>
    obtain ⟨k, v⟩ := m
    rw [put]
    split
    · next hk =>
      subst hk
      rw [List.lookup_cons, List.lookup_cons, beq_false_of_ne h]
    · rw [List.lookup_cons, List.lookup_cons, ih]

theorem filter_put_self (ms : List (String × Value)) :
    (put name value ms).filter (·.1 != name) = ms.filter (·.1 != name) := by
  induction ms with
  | nil => simp [put]
  | cons m ms ih =>
    rw [put]
    split
    · next h => simp [h]
    · rw [List.filter_cons, List.filter_cons, ih]

theorem filter_put_other (h : other ≠ name) (ms : List (String × Value)) :
    (put name value ms).filter (·.1 != other) = put name value (ms.filter (·.1 != other)) := by
  induction ms with
  | nil => simp [put, Ne.symm h]
  | cons m ms ih =>
    obtain ⟨k, v⟩ := m
    by_cases hk : k = name
    · subst hk
      simp [put, Ne.symm h]
    · by_cases ho : k = other <;> simp [put, hk, ho, ih, h]

theorem merge_append_singleton (ms : List (String × Value)) :
    merge (ms ++ [(name, value)]) = put name value (merge ms) := by
  induction ms with
  | nil => rfl
  | cons m ms ih =>
    obtain ⟨k, v⟩ := m
    rw [List.cons_append, merge, ih, merge, put]
    split
    · next h =>
      subst h
      rw [lookup_put_self, filter_put_self]
      rfl
    · next h => rw [lookup_put_other h, filter_put_other h]

/-- Members with each key once stay as they are. -/
theorem merge_of_nodup {ms : List (String × Value)} (h : (ms.map (·.1)).Nodup) : merge ms = ms := by
  induction ms with
  | nil => rfl
  | cons m ms ih =>
    obtain ⟨name, v⟩ := m
    obtain ⟨hname, hms⟩ := List.nodup_cons.1 h
    have hne : ∀ m ∈ ms, (m.1 != name) = true := by
      intro m hm
      rw [bne_iff_ne]
      rintro rfl
      exact hname (List.mem_map.2 ⟨m, hm, rfl⟩)
    have hlookup : ms.lookup name = none := by
      rw [List.lookup_eq_none_iff]
      intro m hm
      have := hne m hm
      grind
    rw [merge, ih hms, hlookup, List.filter_eq_self.2 hne]
    rfl

/-- **Storing members one after the other merges them.** -/
theorem merge_eq_foldl (ms : List (String × Value)) :
    merge ms = ms.foldl (fun done m => put m.1 m.2 done) [] := by
  induction ms using List.reverseRecOn with
  | nil => rfl
  | append_singleton ms m ih =>
    rw [List.foldl_append, ← ih, List.foldl_cons, List.foldl_nil]
    exact merge_append_singleton ms

theorem ofList_ofText (ms : List (String × Value)) : ofList (ofText ms) = ofText (merge ms) := by
  have h (done : List (String × Value)) :
      (ofText ms).foldl (fun members m => (Members.insert members m.1 m.2).2) (ofText done) =
        ofText (ms.foldl (fun done m => put m.1 m.2 done) done) := by
    induction ms generalizing done with
    | nil => rfl
    | cons m ms ih =>
      rw [List.foldl_cons, ← ih (put m.1 m.2 done), ← insert_ofText]
      rfl
  rw [merge_eq_foldl]
  exact h []

/-! ## What merged members tell -/

theorem map_fst_put (ms : List (String × Value)) :
    (put name value ms).map (·.1) =
      if name ∈ ms.map (·.1) then ms.map (·.1) else ms.map (·.1) ++ [name] := by
  induction ms with
  | nil => rfl
  | cons m ms ih =>
    rw [put]
    split
    · next h => simp [h]
    · next h =>
      rw [List.map_cons, List.map_cons, ih]
      split
      · next hm => rw [if_pos (List.mem_cons_of_mem _ hm)]
      · next hm => rw [if_neg (by simpa [Ne.symm h] using hm), List.cons_append]

theorem eraseDups_append_singleton (names : List String) (name : String) :
    (names ++ [name]).eraseDups =
      if name ∈ names.eraseDups then names.eraseDups else names.eraseDups ++ [name] := by
  rw [List.eraseDups_append]
  split
  · next h => simp [List.removeAll, List.mem_eraseDups.1 h]
  · next h => simp [List.removeAll, mt List.mem_eraseDups.2 h, List.eraseDups_cons]

/-- The keys of merged members are the keys in the order in which they first came. -/
theorem map_fst_merge (ms : List (String × Value)) :
    (merge ms).map (·.1) = (ms.map (·.1)).eraseDups := by
  induction ms using List.reverseRecOn with
  | nil => rfl
  | append_singleton ms m ih =>
    rw [merge_append_singleton, map_fst_put, ih, List.map_append]
    exact (eraseDups_append_singleton _ _).symm

/-- Merged members hold under a key the value that came last. -/
theorem lookup_merge (ms : List (String × Value)) (name : String) :
    (merge ms).lookup name = ms.reverse.lookup name := by
  induction ms using List.reverseRecOn with
  | nil => rfl
  | append_singleton ms m ih =>
    obtain ⟨k, v⟩ := m
    rw [merge_append_singleton, List.reverse_concat, List.lookup_cons]
    by_cases h : name = k
    · rw [h, lookup_put_self, beq_self_eq_true]
    · rw [lookup_put_other h, ih, beq_false_of_ne h]

theorem keys_ofText (ms : List (String × Value)) : keys (ofText ms) = (ms.map (·.1)).map .str := by
  simp [keys, ofText]

theorem get?_ofText (ms : List (String × Value)) (name : String) :
    get? (ofText ms) name = ms.lookup name := by
  induction ms with
  | nil => rfl
  | cons m ms ih =>
    rw [ofText, List.map_cons, get?, List.find?_cons, List.lookup_cons]
    by_cases h : m.1 = name
    · simp [Value.str?, h]
    · simp only [Value.str?, Option.some_beq_some, beq_false_of_ne h,
        beq_false_of_ne (Ne.symm h)]
      exact ih

end JsonCodec.Members
