/-
What is left of a value when all that is looked up has been put in its place.

A handle, and a temporal value where those go to the hook, has another value written in its place
(`Lookup.find?`). `Lookup.Unfolds` follows this through items and members down to a tree; a
derivation is finite, and there is at most one tree (`Unfolds.unique`). Keys are never unfolded.
-/
import Mathlib.Data.List.Zip
import Mathlib.Logic.Relation
import JsonCodec.Encoder
import JsonCodec.Value.Members

namespace JsonCodec

/-- What an encoding looks values up in, with a hook that is a function of the value. -/
structure Lookup where
  options : Options := {}
  graph : Graph := .empty
  hook : Option (Value → Option Value) := none

namespace Lookup

def encoder (l : Lookup) : Encoder Unit := ⟨l.options, l.graph, l.hook.map Hook.ofFunction⟩

/-- The same without the hook. -/
def hookless (l : Lookup) : Lookup := { l with hook := none }

@[simp] theorem options_encoder (l : Lookup) : l.encoder.options = l.options := rfl

@[simp] theorem options_hookless (l : Lookup) : l.hookless.options = l.options := rfl

/-- Whether a value has a text of its own and no values inside it. -/
def isLeaf (l : Lookup) : Value → Bool
  | .array _ | .object _ | .shared _ | .foreign _ _ => false
  | .dateTime _ | .date _ | .time _ => !l.options.passthroughDatetime
  | _ => true

/-- What the hook offers for a value. -/
def offered? (l : Lookup) (v : Value) : Option Value := l.hook.bind fun f => f v

/-- The value that is written in place of another, if there is such a one. -/
def find? (l : Lookup) : Value → Option Value
  | .shared node => some (l.graph.content node)
  | .foreign id name =>
    match l.graph.enumValue id with
    | some value => some value
    | none =>
      match if l.options.passthroughDataclass then none else l.graph.fields id with
      | some fields => some (.object fields)
      | none => l.offered? (.foreign id name)
  | .dateTime t => if l.options.passthroughDatetime then l.offered? (.dateTime t) else none
  | .date d => if l.options.passthroughDatetime then l.offered? (.date d) else none
  | .time t => if l.options.passthroughDatetime then l.offered? (.time t) else none
  | _ => none

/-- `tree` is what is left of `v`. -/
inductive Unfolds (l : Lookup) : (v tree : Value) → Prop
  | leaf {v : Value} (h : l.isLeaf v = true) : Unfolds l v v
  | found {v w tree : Value} (h : l.find? v = some w) (hw : Unfolds l w tree) : Unfolds l v tree
  | array {vs trees : List Value} (hl : trees.length = vs.length)
    (h : ∀ p ∈ vs.zip trees, Unfolds l p.1 p.2) : Unfolds l (.array vs) (.array trees)
  | object {ms trees : Members} (hk : trees.keys = ms.keys)
    (h : ∀ p ∈ ms.values.zip trees.values, Unfolds l p.1 p.2) :
    Unfolds l (.object ms) (.object trees)

/-- `w` is an item of `v`, the value of a member, or written in its place. -/
inductive Leads (l : Lookup) : (v w : Value) → Prop
  | item {vs : List Value} {v : Value} (h : v ∈ vs) : Leads l (.array vs) v
  | member {ms : Members} {m : Value × Value} (h : m ∈ ms) : Leads l (.object ms) m.2
  | found {v w : Value} (h : l.find? v = some w) : Leads l v w

/-- `w` is `v` or a value met on the way down from it. -/
def Reaches (l : Lookup) : (v w : Value) → Prop := Relation.ReflTransGen l.Leads

variable {l : Lookup} {v : Value}

theorem find?_of_isLeaf (h : l.isLeaf v = true) : l.find? v = none := by
  cases v with
  | dateTime _ | date _ | time _ => exact if_neg (by simpa [isLeaf] using h)
  | array _ | object _ | shared _ | foreign _ _ => cases h
  | _ => rfl

theorem isLeaf_hookless (v : Value) : l.hookless.isLeaf v = l.isLeaf v := by cases v <;> rfl

theorem Leads.mem_of_array {vs : List Value} {w : Value} (h : l.Leads (.array vs) w) : w ∈ vs := by
  cases h with
  | item hw => exact hw
  | found hf => cases hf

theorem Leads.exists_of_object {ms : Members} {w : Value} (h : l.Leads (.object ms) w) :
    ∃ m ∈ ms, m.2 = w := by
  cases h with
  | member hm => exact ⟨_, hm, rfl⟩
  | found hf => cases hf

namespace Unfolds

variable {ι : Type} {xs : List ι} {val tree : ι → Value} {s t : Value}

theorem array_map (h : ∀ x ∈ xs, l.Unfolds (val x) (tree x)) :
    l.Unfolds (.array (xs.map val)) (.array (xs.map tree)) := by
  refine .array (by rw [List.length_map, List.length_map]) fun p hp => ?_
  rw [List.zip_map'] at hp
  obtain ⟨x, hx, rfl⟩ := List.mem_map.1 hp
  exact h x hx

theorem object_map (key : ι → Value) (h : ∀ x ∈ xs, l.Unfolds (val x) (tree x)) :
    l.Unfolds (.object (xs.map fun x => (key x, val x)))
      (.object (xs.map fun x => (key x, tree x))) := by
  refine .object (by simp only [Members.keys, List.map_map, Function.comp_def]) fun p hp => ?_
  simp only [Members.values, List.map_map, Function.comp_def, List.zip_map'] at hp
  obtain ⟨x, hx, rfl⟩ := List.mem_map.1 hp
  exact h x hx

/-- A container of trees is a tree. -/
theorem array_self {vs : List Value} (h : ∀ v ∈ vs, l.Unfolds v v) :
    l.Unfolds (.array vs) (.array vs) := by
  have harray : l.Unfolds (.array (vs.map id)) (.array (vs.map id)) := array_map h
  rwa [List.map_id] at harray

theorem object_self {ms : Members} (h : ∀ m ∈ ms, l.Unfolds m.2 m.2) :
    l.Unfolds (.object ms) (.object ms) := by
  have hobject : l.Unfolds (.object (ms.map fun m => (m.1, m.2)))
      (.object (ms.map fun m => (m.1, m.2))) := object_map Prod.fst h
  rwa [List.map_id'] at hobject

/-- Lists that stand in the same order beside a third are equal where each place has one value. -/
theorem eq_of_zip {R : Value → Value → Prop} {vs trees others : List Value}
    (hl : trees.length = vs.length) (hl' : others.length = vs.length)
    (h : ∀ p ∈ vs.zip trees, ∀ t, R p.1 t → t = p.2) (h' : ∀ p ∈ vs.zip others, R p.1 p.2) :
    others = trees := by
  induction vs generalizing trees others with
  | nil => rw [List.length_eq_zero_iff.1 hl, List.length_eq_zero_iff.1 hl']
  | cons v vs ih =>
    obtain ⟨s, trees, rfl⟩ := List.exists_cons_of_length_eq_add_one hl
    obtain ⟨t, others, rfl⟩ := List.exists_cons_of_length_eq_add_one hl'
    rw [List.zip_cons_cons, List.forall_mem_cons] at h h'
    rw [h.1 t h'.1, ih (Nat.succ.inj hl) (Nat.succ.inj hl') h.2 h'.2]

theorem length_values {ms trees : Members} (h : trees.keys = ms.keys) :
    trees.values.length = ms.values.length := by
  have hlen := congrArg List.length h
  simpa only [Members.keys, Members.values, List.length_map] using hlen

/-- **A value is unfolded into one tree at most.** -/
theorem unique (hs : l.Unfolds v s) (ht : l.Unfolds v t) : t = s := by
  induction hs generalizing t with
  | leaf h =>
    cases ht with
    | leaf => rfl
    | found hw =>
      rw [find?_of_isLeaf h] at hw
      cases hw
    | array | object => cases h
  | found h hw ih =>
    cases ht with
    | leaf h' =>
      rw [find?_of_isLeaf h'] at h
      cases h
    | found h' hw' =>
      rw [h] at h'
      cases h'
      exact ih hw'
    | array | object => cases h
  | array hl h ih =>
    cases ht with
    | leaf h' | found h' => cases h'
    | array hl' h' => rw [eq_of_zip hl hl' (fun p hp _ => ih p hp) h']
  | object hk h ih =>
    cases ht with
    | leaf h' | found h' => cases h'
    | object hk' h' =>
      have hv := eq_of_zip (length_values hk) (length_values hk') (fun p hp _ => ih p hp) h'
      have hm := List.zip_of_prod (hk'.trans hk.symm) hv
      rw [hm]
      exact congrArg Value.object (List.zip_of_prod rfl rfl).symm

/-- Nothing is left to be looked up in a tree. -/
theorem tree_hookless (h : l.Unfolds v t) : l.hookless.Unfolds t t := by
  induction h with
  | leaf h => exact .leaf (by rwa [isLeaf_hookless])
  | found _ _ ih => exact ih
  | @array vs trees hl _ ih =>
    have hself : ∀ t ∈ trees, l.hookless.Unfolds t t := by
      intro t ht
      rw [← List.map_snd_zip (Nat.le_of_eq hl)] at ht
      obtain ⟨p, hp, rfl⟩ := List.mem_map.1 ht
      exact ih p hp
    exact array_self hself
  | @object ms trees hk _ ih =>
    have hself : ∀ m ∈ trees, l.hookless.Unfolds m.2 m.2 := by
      intro m hm
      have ht : m.2 ∈ trees.values := List.mem_map_of_mem hm
      rw [← List.map_snd_zip (Nat.le_of_eq (length_values hk))] at ht
      obtain ⟨p, hp, he⟩ := List.mem_map.1 ht
      exact he ▸ ih p hp
    exact object_self hself

end Unfolds

end Lookup

end JsonCodec
