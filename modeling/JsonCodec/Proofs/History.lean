/-
Members after any operations (`Members.after_told`), told from the operations alone.

Cutting the operations at each of them shows what was done before it and after it. So an operation
begins a member if its key was not there by then, and the member is there at the end if nothing after
it takes it out; the members are those, in that order. And the value under a key is the one that the
last operation on that key stored. Keys that are there are never equal to each other, so that what is
stored or taken out under a key changes one member at most.
-/
import Mathlib.Data.List.Induction
import JsonCodec.Proofs.Equality
import JsonCodec.Value.Members

namespace JsonCodec.Members

/-! ## Operations -/

/-- An operation that stores a value or takes one out. -/
inductive Operation where
  | insert (key value : Value)
  | remove (name : String)
  | replaceAt (index : Nat) (value : Value)

namespace Operation

/-- The answer, and the members that are left. -/
def run (op : Operation) (ms : Members) : Option Value × Members :=
  match op with
  | .insert key value => ms.insert key value
  | .remove name => ms.remove name
  | .replaceAt index value => ms.replaceAt index value

/-- Whether it stores under the key. -/
def inserts : Operation → (key : Value) → Bool
  | .insert k _, key => k == key
  | _, _ => false

/-- Whether it takes out the key. -/
def removes : Operation → (key : Value) → Bool
  | .remove name, key => Value.str name == key
  | _, _ => false

/-- Whether it is on the member of a key, where the members have these keys. -/
def addresses (op : Operation) (keys : List Value) (key : Value) : Bool :=
  match op with
  | .insert k _ => k == key
  | .remove name => Value.str name == key
  | .replaceAt index _ => keys[index]?.any (· == key)

/-- The value that it stores. -/
def value? : Operation → Option Value
  | .insert _ value | .replaceAt _ value => some value
  | .remove _ => none

end Operation

/-- The members that operations lead to, from none on. -/
def after (ops : List Operation) : Members := ops.foldl (fun ms op => (op.run ms).2) []

/-! ## What operations tell -/

/-- An operation, those before it and those after it. -/
structure Cut where
  before : List Operation
  operation : Operation
  after : List Operation

/-- The operations, cut at each of them. -/
def cuts : List Operation → List Cut
  | [] => []
  | op :: ops => ⟨[], op, ops⟩ :: (cuts ops).map fun c => { c with before := op :: c.before }

/-- Whether a key has been stored under, and has not been taken out since. -/
def holds (ops : List Operation) (key : Value) : Bool :=
  ops.foldl (fun held op => (held || op.inserts key) && !op.removes key) false

/-- The key of an operation that stores under a key that was not there, if the key is never taken out
again. -/
def Cut.begins? (c : Cut) : Option Value :=
  match c.operation with
  | .insert key _ =>
    if holds c.before key || c.after.any (·.removes key) then none else some key
  | _ => none

/-- The keys that are there, in the order in which they came. -/
def standing (ops : List Operation) : List Value := (cuts ops).filterMap Cut.begins?

/-- Whether the operation is on the member of a key, with the keys that are there by then. -/
def Cut.addresses (c : Cut) (key : Value) : Bool :=
  c.operation.addresses (standing c.before) key

/-- The value that the last operation on a key stored, unless that took the key out. -/
def stored? (ops : List Operation) (key : Value) : Option Value :=
  ((cuts ops).filter (·.addresses key)).getLast?.bind fun c => c.operation.value?

variable {ms : Members} {ops : List Operation} {op : Operation} {k key value v : Value}
  {name : String} {index : Nat}

theorem after_append_singleton (ops : List Operation) (op : Operation) :
    after (ops ++ [op]) = (op.run (after ops)).2 := by
  rw [after, List.foldl_append]
  rfl

theorem holds_append_singleton (ops : List Operation) (op : Operation) (key : Value) :
    holds (ops ++ [op]) key = ((holds ops key || op.inserts key) && !op.removes key) := by
  rw [holds, List.foldl_append]
  rfl

theorem cuts_append_singleton (ops : List Operation) (op : Operation) :
    cuts (ops ++ [op]) =
      (cuts ops).map (fun c => { c with after := c.after ++ [op] }) ++ [⟨ops, op, []⟩] := by
  induction ops with
  | nil => rfl
  | cons first ops ih =>
    simp only [List.cons_append, cuts, ih, List.map_append, List.map_cons, List.map_map, List.map_nil]
    rfl

/-- One more operation may take out a key, or begin a member. -/
theorem standing_append_singleton (ops : List Operation) (op : Operation) :
    standing (ops ++ [op]) =
      (standing ops).filter (fun key => !op.removes key) ++ (Cut.begins? ⟨ops, op, []⟩).toList := by
  have hcut : (fun c => Cut.begins? { c with after := c.after ++ [op] }) =
      fun c : Cut => c.begins?.filter fun key => !op.removes key := by
    funext ⟨before, operation, after⟩
    cases operation with
    | insert key value =>
      simp only [Cut.begins?, List.any_append, List.any_cons, List.any_nil, Bool.or_false]
      cases holds before key <;> cases after.any (·.removes key) <;> cases hr : op.removes key <;>
        simp [Option.filter_some, hr]
    | remove | replaceAt => rfl
  rw [standing, cuts_append_singleton, List.filterMap_append, List.filterMap_map, standing,
    List.filter_filterMap]
  simp only [Function.comp_def, hcut]
  rfl

theorem stored?_append_singleton (ops : List Operation) (op : Operation) (key : Value) :
    stored? (ops ++ [op]) key =
      if op.addresses (standing ops) key then op.value? else stored? ops key := by
  have hcut (c : Cut) : Cut.addresses { c with after := c.after ++ [op] } key = c.addresses key := rfl
  have hlast : Cut.addresses ⟨ops, op, []⟩ key = op.addresses (standing ops) key := rfl
  rw [stored?, cuts_append_singleton, List.filter_append, List.filter_map]
  simp only [Function.comp_def, hcut]
  cases h : op.addresses (standing ops) key with
  | true => simp [hlast, h]
  | false =>
    have hnone : [(⟨ops, op, []⟩ : Cut)].filter (·.addresses key) = [] :=
      List.filter_cons_of_neg (by rw [hlast, h]; exact Bool.false_ne_true)
    rw [hnone, List.append_nil, List.getLast?_map, Option.bind_map]
    rfl

/-! ## What an operation does -/

/-- No two keys are equal. -/
def Distinct (ms : Members) : Prop := (keys ms).Pairwise fun j k => (j == k) = false

/-- The member with another value, if it is that of the key. -/
def overwrite (key value : Value) (m : Value × Value) : Value × Value :=
  if m.1 == key then (m.1, value) else m

@[simp] theorem fst_overwrite (key value : Value) (m : Value × Value) :
    (overwrite key value m).1 = m.1 := by
  rw [overwrite]
  split <;> rfl

/-- A text key is asked for as any other. -/
theorem str?_beq (k : Value) (name : String) : (k.str? == some name) = (k == Value.str name) := by
  rw [Bool.eq_iff_iff, Value.beq_iff]
  constructor
  · intro h
    cases k with
    | str text =>
      obtain rfl : text = name := by simpa [Value.str?] using h
      exact .atom rfl
    | _ => simp [Value.str?] at h
  · intro h
    cases h
    exact beq_self_eq_true _

theorem get?_eq_getKey? (ms : Members) (name : String) : get? ms name = getKey? ms (.str name) := by
  simp only [get?, getKey?, str?_beq]

theorem getKey?_cons (k v : Value) (ms : Members) (key : Value) :
    getKey? ((k, v) :: ms) key = if k == key then some v else getKey? ms key := by
  simp only [getKey?, List.find?_cons]
  cases k == key <;> rfl

theorem keys_cons (k v : Value) (ms : Members) : keys ((k, v) :: ms) = k :: keys ms := rfl

theorem Distinct.of_cons (h : Distinct ((k, v) :: ms)) : Distinct ms := (List.pairwise_cons.1 h).2

/-- Where a key is equal to another, no key behind it is. -/
theorem Distinct.beq_eq_false (h : Distinct ((k, v) :: ms)) (hk : (k == key) = true) :
    ∀ j ∈ keys ms, (j == key) = false := by
  intro j hj
  have hne : (k == j) = false := (List.pairwise_cons.1 h).1 j hj
  cases hj : j == key with
  | false => rfl
  | true =>
    have heq : (k == j) = true := BEq.trans hk (BEq.symm hj)
    rw [heq] at hne
    cases hne

theorem mem_keys {m : Value × Value} (h : m ∈ ms) : m.1 ∈ keys ms := List.mem_map_of_mem h

/-- **Storing changes the value under the equal key, or else adds a member.** -/
theorem insert_eq (h : Distinct ms) (key value : Value) :
    insert ms key value =
      (getKey? ms key, if (keys ms).any (· == key) then ms.map (overwrite key value)
        else ms ++ [(key, value)]) := by
  induction ms with
  | nil => rfl
  | cons m ms ih =>
    obtain ⟨k, v⟩ := m
    rw [insert, getKey?_cons, keys_cons, List.any_cons, List.map_cons, overwrite]
    cases hk : k == key with
    | true =>
      have hrest : ms.map (overwrite key value) = ms := by
        conv_rhs => rw [← List.map_id ms]
        refine List.map_congr_left fun m hm => ?_
        rw [overwrite, if_neg (by simp [h.beq_eq_false hk m.1 (mem_keys hm)])]
        rfl
      simp only [Bool.true_or, ite_true, hrest]
    | false =>
      simp only [Bool.false_or, Bool.false_eq_true, ite_false, ih h.of_cons]
      cases (keys ms).any (· == key) <;> rfl

/-- **Taking out takes out the member of the equal key.** -/
theorem remove_eq (h : Distinct ms) (name : String) :
    remove ms name =
      (getKey? ms (.str name), ms.filter fun m => !(m.1 == Value.str name)) := by
  induction ms with
  | nil => rfl
  | cons m ms ih =>
    obtain ⟨k, v⟩ := m
    rw [remove, str?_beq, getKey?_cons, List.filter_cons]
    cases hk : k == Value.str name with
    | true =>
      have hrest : (ms.filter fun m => !(m.1 == Value.str name)) = ms := by
        refine List.filter_eq_self.2 fun m hm => ?_
        rw [h.beq_eq_false hk m.1 (mem_keys hm), Bool.not_false]
      simp only [ite_true, Bool.not_true, Bool.false_eq_true, ite_false, hrest]
    | false => simp only [Bool.false_eq_true, ite_false, ih h.of_cons, Bool.not_false, ite_true]

/-- **Storing at a place changes the value there.** -/
theorem replaceAt_eq (ms : Members) (index : Nat) (value : Value) :
    replaceAt ms index value =
      ((values ms)[index]?, ms.modify index fun m => (m.1, value)) := by
  induction ms generalizing index with
  | nil => simp [replaceAt, values]
  | cons m ms ih =>
    cases index with
    | zero => rfl
    | succ index =>
      rw [replaceAt, ih, List.modify_succ_cons]
      rfl

/-! ## Keys -/

theorem keys_map_overwrite (ms : Members) (key value : Value) :
    keys (ms.map (overwrite key value)) = keys ms := by
  simp [keys, Function.comp_def]

theorem keys_filter (ms : Members) (p : Value → Bool) :
    keys (ms.filter fun m => p m.1) = (keys ms).filter p := by
  rw [keys, keys, List.filter_map]
  rfl

theorem keys_modify (ms : Members) (index : Nat) (value : Value) :
    keys (ms.modify index fun m => (m.1, value)) = keys ms := by
  induction ms generalizing index with
  | nil => simp
  | cons m ms ih =>
    cases index with
    | zero => rfl
    | succ index =>
      rw [List.modify_succ_cons, keys, List.map_cons]
      exact congrArg _ (ih index)

/-- The keys after an operation are those that it does not take out, and the one that it brings. -/
theorem keys_run (h : Distinct ms) (hk : ∀ key, holds ops key = (keys ms).any (· == key))
    (op : Operation) :
    keys (op.run ms).2 =
      (keys ms).filter (fun key => !op.removes key) ++ (Cut.begins? ⟨ops, op, []⟩).toList := by
  have hall : (keys ms).filter (fun _ => !false) = keys ms := List.filter_eq_self.2 fun _ _ => rfl
  cases op with
  | insert key value =>
    rw [Operation.run, insert_eq h]
    simp only [Operation.removes, Cut.begins?, hk, List.any_nil, Bool.or_false, hall]
    split
    · simp [keys_map_overwrite]
    · simp [keys]
  | remove name =>
    rw [Operation.run, remove_eq h]
    simp only [Operation.removes, Cut.begins?, Option.toList_none, List.append_nil]
    have hcomm (k : Value) : (k == Value.str name) = (Value.str name == k) := BEq.comm
    simp only [hcomm]
    exact keys_filter ms fun k => !(Value.str name == k)
  | replaceAt index value =>
    rw [Operation.run, replaceAt_eq]
    simp only [Operation.removes, Cut.begins?, Option.toList_none, List.append_nil, hall]
    exact keys_modify ms index value

/-- To ask for a key or for an equal one is the same. -/
theorem any_beq_congr (h : (k == key) = true) (ks : List Value) :
    ks.any (· == k) = ks.any (· == key) := by
  simp only [BEq.congr_right h]

theorem holds_of_begins? (h : Cut.begins? ⟨ops, op, []⟩ = some k) : holds ops k = false := by
  cases op with
  | insert key value =>
    simp only [Cut.begins?, List.any_nil, Bool.or_false] at h
    cases hk : holds ops key with
    | true => simp [hk] at h
    | false =>
      obtain rfl : key = k := by simpa [hk] using h
      exact hk
  | remove | replaceAt => cases h

/-- A key is there after an operation that stores under it or leaves it there. -/
theorem any_keys_run (h : Distinct ms) (hk : ∀ key, holds ops key = (keys ms).any (· == key))
    (op : Operation) (key : Value) :
    (keys (op.run ms).2).any (· == key) =
      (((keys ms).any (· == key) || op.inserts key) && !op.removes key) := by
  rw [keys_run h hk, List.any_append, List.any_filter]
  cases op with
  | insert k value =>
    simp only [Operation.removes, Operation.inserts, Cut.begins?, hk, List.any_nil, Bool.or_false,
      Bool.not_false, Bool.true_and, Bool.and_true]
    cases hheld : (keys ms).any (· == k) with
    | false => simp
    | true =>
      cases hkey : k == key with
      | false => simp
      | true => simp [← any_beq_congr hkey, hheld]
  | remove name =>
    have hleft (k : Value) : (!(Value.str name == k) && k == key) =
        (k == key && !(Value.str name == key)) := by
      rw [Bool.and_comm]
      cases hkey : k == key with
      | false => rfl
      | true => rw [BEq.congr_right hkey]
    simp only [Operation.removes, Operation.inserts, Cut.begins?, Option.toList_none, List.any_nil,
      Bool.or_false, hleft, List.and_any_distrib_right]
  | replaceAt index value =>
    simp [Operation.removes, Operation.inserts, Cut.begins?]

/-- **The keys are those that the operations tell, in their order, and no two are equal.** -/
theorem keys_after (ops : List Operation) :
    keys (after ops) = standing ops ∧ Distinct (after ops) ∧
      ∀ key, holds ops key = (keys (after ops)).any (· == key) := by
  induction ops using List.reverseRecOn with
  | nil => exact ⟨rfl, .nil, fun _ => rfl⟩
  | append_singleton ops op ih =>
    obtain ⟨hkeys, hdistinct, hholds⟩ := ih
    have hrun := keys_run hdistinct hholds op
    rw [after_append_singleton]
    refine ⟨?_, ?_, fun key => ?_⟩
    · rw [hrun, hkeys, standing_append_singleton]
    · rw [Distinct, hrun, List.pairwise_append]
      refine ⟨hdistinct.filter _, ?_, fun j hj k hk => ?_⟩
      · cases Cut.begins? ⟨ops, op, []⟩ with
        | none => exact .nil
        | some k => exact List.pairwise_singleton _ _
      · have hnew := holds_of_begins? (Option.mem_toList.1 hk)
        rw [hholds, List.any_eq_false] at hnew
        exact Bool.not_eq_true _ ▸ hnew j (List.mem_filter.1 hj).1
    · rw [holds_append_singleton, hholds, any_keys_run hdistinct hholds]

/-! ## Values -/

theorem any_keys (ms : Members) (key : Value) :
    (keys ms).any (· == key) = (getKey? ms key).isSome := by
  induction ms with
  | nil => rfl
  | cons m ms ih =>
    obtain ⟨k, v⟩ := m
    rw [keys_cons, List.any_cons, getKey?_cons, ih]
    cases k == key <;> rfl

theorem getKey?_map_overwrite (ms : Members) (k value key : Value) :
    getKey? (ms.map (overwrite k value)) key =
      if k == key then (getKey? ms key).map fun _ => value else getKey? ms key := by
  induction ms with
  | nil => simp [getKey?]
  | cons m ms ih =>
    obtain ⟨j, v⟩ := m
    rw [List.map_cons, getKey?_cons]
    have hfst : overwrite k value (j, v) = (j, if j == k then value else v) := by
      rw [overwrite]
      split <;> rfl
    rw [hfst, getKey?_cons, ih]
    cases hj : j == key with
    | false => rfl
    | true =>
      have hk : (j == k) = (k == key) := by rw [BEq.congr_left hj, BEq.comm]
      rw [hk]
      cases k == key <;> rfl

theorem getKey?_append_singleton (ms : Members) (k value key : Value) :
    getKey? (ms ++ [(k, value)]) key =
      (getKey? ms key).or (if k == key then some value else none) := by
  induction ms with
  | nil => rw [List.nil_append, getKey?_cons]; rfl
  | cons m ms ih =>
    obtain ⟨j, v⟩ := m
    rw [List.cons_append, getKey?_cons, getKey?_cons, ih]
    cases j == key <;> rfl

theorem getKey?_filter (ms : Members) (k key : Value) :
    getKey? (ms.filter fun m => !(m.1 == k)) key =
      if k == key then none else getKey? ms key := by
  induction ms with
  | nil => simp [getKey?]
  | cons m ms ih =>
    obtain ⟨j, v⟩ := m
    rw [List.filter_cons, getKey?_cons]
    cases hj : j == key with
    | false =>
      split
      · rw [getKey?_cons, hj, ih]; rfl
      · exact ih
    | true =>
      have hk : (j == k) = (k == key) := by rw [BEq.congr_left hj, BEq.comm]
      rw [hk]
      cases hkey : k == key with
      | false => simp [getKey?_cons, hj]
      | true => simp [ih, hkey]

theorem getKey?_modify (h : Distinct ms) (index : Nat) (value key : Value) :
    getKey? (ms.modify index fun m => (m.1, value)) key =
      if (keys ms)[index]?.any (· == key) then some value else getKey? ms key := by
  induction ms generalizing index with
  | nil => simp [keys, getKey?]
  | cons m ms ih =>
    obtain ⟨k, v⟩ := m
    cases index with
    | zero =>
      rw [List.modify_zero_cons, getKey?_cons, getKey?_cons, keys_cons]
      cases hk : k == key <;> simp [hk]
    | succ index =>
      rw [List.modify_succ_cons, getKey?_cons, getKey?_cons, keys_cons, ih h.of_cons]
      cases hk : k == key with
      | false => rfl
      | true =>
        have hno : (keys ms)[index]?.any (· == key) = false := by
          cases hj : (keys ms)[index]? with
          | none => rfl
          | some j => exact h.beq_eq_false hk j (List.mem_of_getElem? hj)
        simp [hno]

/-- **Under a key is what the operation stored, if it is on the key; else what was there.** -/
theorem getKey?_run (h : Distinct ms) (op : Operation) (key : Value) :
    getKey? (op.run ms).2 key = if op.addresses (keys ms) key then op.value? else getKey? ms key := by
  cases op with
  | insert k value =>
    have haddresses : (Operation.insert k value).addresses (keys ms) key = (k == key) := rfl
    rw [Operation.run, insert_eq h, haddresses, Operation.value?]
    by_cases hkey : (k == key) = true
    · rw [if_pos hkey, any_beq_congr hkey, any_keys]
      cases hold : getKey? ms key with
      | none => simp [getKey?_append_singleton, hold, hkey]
      | some v => simp [getKey?_map_overwrite, hold, hkey]
    · rw [if_neg hkey]
      split
      · rw [getKey?_map_overwrite, if_neg hkey]
      · rw [getKey?_append_singleton, if_neg hkey, Option.or_none]
  | remove name =>
    rw [Operation.run, remove_eq h]
    exact getKey?_filter ms (.str name) key
  | replaceAt index value =>
    rw [Operation.run, replaceAt_eq]
    exact getKey?_modify h index value key

/-- **Under a key is what was stored there last, and has not been taken out since.** -/
theorem getKey?_after (ops : List Operation) (key : Value) :
    getKey? (after ops) key = stored? ops key := by
  induction ops using List.reverseRecOn with
  | nil => rfl
  | append_singleton ops op ih =>
    obtain ⟨hkeys, hdistinct, -⟩ := keys_after ops
    rw [after_append_singleton, getKey?_run hdistinct, stored?_append_singleton, ih, hkeys]

/-- What has a NaN in it is equal to nothing, from neither side. -/
theorem beq_of_hasNaN (h : key.hasNaN = true) (k : Value) :
    (key == k) = false ∧ (k == key) = false := by
  have hnone : (key == k) = false := by
    cases hk : key == k with
    | false => rfl
    | true =>
      have hno : key.hasNaN = false := Value.exists_beq_iff.1 ⟨k, hk⟩
      rw [h] at hno
      cases hno
  exact ⟨hnone, BEq.comm.trans hnone⟩

/-- Storing under what has a NaN in it adds a member that is found under no key. -/
theorem insert_of_hasNaN (hd : Distinct ms) (h : key.hasNaN = true) (value : Value) :
    insert ms key value = (none, ms ++ [(key, value)]) ∧
      ∀ k, getKey? (ms ++ [(key, value)]) k = getKey? ms k := by
  have hno : (keys ms).any (· == key) = false := by
    rw [List.any_eq_false]
    intro k _
    rw [(beq_of_hasNaN h k).2]
    exact Bool.false_ne_true
  have hnone : getKey? ms key = none := by
    rwa [any_keys, Option.isSome_eq_false_iff, Option.isNone_iff_eq_none] at hno
  refine ⟨?_, fun k => ?_⟩
  · rw [insert_eq hd, hno, hnone, if_neg Bool.false_ne_true]
  · rw [getKey?_append_singleton, (beq_of_hasNaN h k).1, if_neg Bool.false_ne_true, Option.or_none]

/-- **Members after any operations.** No two keys are equal. The keys are those that came and were not
taken out since, in the order in which they came and as they came; and under a key, text or not, is
what the last operation on it stored. One more operation answers with what it displaces, and leaves
all other members as they are. What has a NaN in it is equal to no key, so that storing under it adds
a member that no key finds. -/
theorem after_told (ops : List Operation) :
    Distinct (after ops) ∧ keys (after ops) = standing ops ∧
      (∀ key, getKey? (after ops) key = stored? ops key) ∧
      (∀ name, get? (after ops) name = stored? ops (.str name)) ∧
      (∀ key value, insert (after ops) key value =
        (stored? ops key, if holds ops key then (after ops).map (overwrite key value)
          else after ops ++ [(key, value)])) ∧
      (∀ name, remove (after ops) name =
        (stored? ops (.str name), (after ops).filter fun m => !(m.1 == Value.str name))) ∧
      (∀ index value, replaceAt (after ops) index value =
        ((values (after ops))[index]?, (after ops).modify index fun m => (m.1, value))) ∧
      ∀ key, key.hasNaN = true →
        (∀ k : Value, (key == k) = false ∧ (k == key) = false) ∧
        ∀ value, insert (after ops) key value = (none, after ops ++ [(key, value)]) ∧
          ∀ k, getKey? (after ops ++ [(key, value)]) k = getKey? (after ops) k := by
  obtain ⟨hkeys, hdistinct, hholds⟩ := keys_after ops
  refine ⟨hdistinct, hkeys, getKey?_after ops, fun name => ?_, fun key value => ?_, fun name => ?_,
    replaceAt_eq _, fun key h => ⟨beq_of_hasNaN h, insert_of_hasNaN hdistinct h⟩⟩
  · rw [get?_eq_getKey?, getKey?_after]
  · rw [insert_eq hdistinct, getKey?_after, hholds]
  · rw [remove_eq hdistinct, getKey?_after]

/-- The two zeros are one key, which stays as it came first, in its place. -/
example :
    let zero : Value := .float ⟨0⟩
    let minusZero : Value := .float ⟨0x8000000000000000⟩
    after [.insert zero (.bool true), .insert (.str "a") .null, .insert minusZero (.bool false)] =
      [(zero, .bool false), (.str "a", .null)] := rfl

end JsonCodec.Members
