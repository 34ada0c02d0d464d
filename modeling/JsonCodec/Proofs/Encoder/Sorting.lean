/-
Documents whose members are written in order (`encodeWith_sortKeys`). Putting members in order while a
value is written gives what is written without that, of the value with its members put in order
before: in the value itself, in the nodes, the fields and the values that handles stand for, and in
the answers of the hook. And the one is written just if the other is, though all keys of an object
are put into text before any of its values is written.
-/
import JsonCodec.Proofs.Encoder.OtherOptions
import JsonCodec.Proofs.Encoder.TreeWriting
import JsonCodec.Proofs.Native

namespace JsonCodec

open Ascii Encoder TextM

/-! ## Members in order -/

namespace Members

/-- The members in the order of their keys; those of equal keys stay as they stood. -/
def inOrder (order : Value → Bytes) (ms : Members) : Members :=
  ms.mergeSort fun a b => order a.1 ≤ order b.1

/-- `ns` is `ms` in the order of the keys: no member is lost or there twice, and those of equal keys
stand as they did. -/
structure IsInOrder (order : Value → Bytes) (ms ns : Members) : Prop where
  perm : ns.Perm ms
  pairwise : ns.Pairwise fun a b => order a.1 ≤ order b.1
  stable (text : Bytes) :
    (ns.filter fun m => order m.1 == text) = ms.filter fun m => order m.1 == text

@[simp] theorem mem_inOrder {order : Value → Bytes} {ms : Members} {m : Value × Value} :
    m ∈ inOrder order ms ↔ m ∈ ms := List.mem_mergeSort

theorem inOrder_pair (order : Value → Bytes) (a b : Value × Value) :
    inOrder order [a, b] = if order a.1 ≤ order b.1 then [a, b] else [b, a] := by
  simp [inOrder, List.mergeSort, List.MergeSort.Internal.splitInTwo, List.cons_merge_cons]

theorem isInOrder_inOrder (order : Value → Bytes) (ms : Members) :
    IsInOrder order ms (inOrder order ms) := by
  let key (m : Value × Value) : Bytes := order m.1
  have hperm : (inOrder order ms).Perm ms := List.mergeSort_perm ms _
  refine ⟨hperm, (pairwise_bytewise key ms).imp of_decide_eq_true, fun text => ?_⟩
  -- Members of one key are in order already, so they stay a part of the list, and all are there.
  have hpart : (ms.filter fun m => order m.1 == text).Pairwise fun a b =>
      decide (order a.1 ≤ order b.1) = true := by
    refine List.pairwise_of_forall_mem_list fun a ha b hb => ?_
    rw [beq_iff_eq.1 (List.mem_filter.1 ha).2, beq_iff_eq.1 (List.mem_filter.1 hb).2]
    exact decide_eq_true (List.le_refl _)
  have hsub := (List.sublist_mergeSort (bytewise_trans key) (bytewise_total key) hpart
    List.filter_sublist).filter fun m => order m.1 == text
  simp only [List.filter_filter, Bool.and_self] at hsub
  exact (hsub.eq_of_length (hperm.filter _).length_eq.symm).symm

end Members

namespace Value

variable (order : Value → Bytes)

mutual

/-- The value with the members of every object in order. -/
def ordered : Value → Value
  | .array vs => .array (orderedItems vs)
  | .object ms => .object (Members.inOrder order (orderedMembers ms))
  | v => v

/-- Items, each in order inside. -/
def orderedItems : List Value → List Value
  | [] => []
  | v :: vs => ordered v :: orderedItems vs

/-- Members as they stand, each value in order inside. -/
def orderedMembers : Members → Members
  | [] => []
  | (key, v) :: ms => (key, ordered v) :: orderedMembers ms

end

theorem orderedItems_eq_map (vs : List Value) : orderedItems order vs = vs.map (ordered order) := by
  induction vs with
  | nil => rfl
  | cons v vs ih => rw [orderedItems, ih, List.map_cons]

theorem orderedMembers_eq_map (ms : Members) :
    orderedMembers order ms = ms.map fun m => (m.1, m.2.ordered order) := by
  induction ms with
  | nil => rfl
  | cons m ms ih => rw [orderedMembers, ih, List.map_cons]

/-- Values are put in order beside the keys. -/
theorem inOrder_orderedMembers (ms : Members) : Members.inOrder order (orderedMembers order ms) =
    (Members.inOrder order ms).map fun m => (m.1, m.2.ordered order) := by
  rw [orderedMembers_eq_map]
  refine (List.map_mergeSort (f := fun m : Value × Value => (m.1, m.2.ordered order)) ?_).symm
  exact fun _ _ _ _ => rfl

mutual

/-- Where only text keys have an order, that is the order of `sortKeys`. -/
theorem ordered_keyBytes : (v : Value) → v.ordered keyBytes = v.sortKeys
  | .array vs => by rw [ordered, sortKeys, orderedItems_keyBytes]
  | .object ms => by rw [ordered, sortKeys, orderedMembers_keyBytes, Members.inOrder]
  | .null | .bool _ | .int _ | .bigInt _ | .float _ | .str _ | .dateTime _ | .date _ | .time _
  | .uuid _ | .fragment _ | .shared _ | .foreign _ _ => rfl

theorem orderedItems_keyBytes : (vs : List Value) → orderedItems keyBytes vs = sortItems vs
  | [] => rfl
  | v :: vs => by rw [orderedItems, sortItems, ordered_keyBytes, orderedItems_keyBytes]

theorem orderedMembers_keyBytes : (ms : Members) → orderedMembers keyBytes ms = sortMembers ms
  | [] => rfl
  | (key, v) :: ms => by rw [orderedMembers, sortMembers, ordered_keyBytes, orderedMembers_keyBytes]

end

theorem ordered_object (ms : Members) : (Value.object ms).ordered order =
    .object ((Members.inOrder order ms).map fun m => (m.1, m.2.ordered order)) := by
  rw [ordered, inOrder_orderedMembers]

/-- What has no values inside it stays as it is. -/
theorem ordered_of_form {v : Value} {e : Encoder Unit} (h : e.form v = .leaf ∨ e.form v = .asked) :
    v.ordered order = v := by
  cases v with
  | array vs | object ms => simp [Encoder.form] at h
  | _ => rfl

theorem handle?_ordered (v : Value) : (v.ordered order).handle? = v.handle? := by cases v <;> rfl

end Value

/-- What handles stand for, with the members of every object in order. -/
def Graph.ordered (order : Value → Bytes) (g : Graph) : Graph where
  content node := (g.content node).ordered order
  enumValue id := (g.enumValue id).map (Value.ordered order)
  fields id := (g.fields id).map fun ms => Members.inOrder order (Value.orderedMembers order ms)

namespace KeyText

/-- The bytes that order a key, where it has a text. -/
def order (g : Graph) (o : Options) (key : Value) : Bytes :=
  match ofValue g o key with
  | .ok k => k.bytes
  | .error _ => []

theorem order_eq {g : Graph} {o : Options} {key : Value} {k : KeyText}
    (h : ofValue g o key = .ok k) : order g o key = k.bytes := by
  rw [order, h]

/-- What an application value has for a text as a key is no matter of order. -/
theorem ofValue_ordered (order : Value → Bytes) (g : Graph) (o : Options) :
    ofValue (g.ordered order) o = ofValue g o := by
  funext key
  cases key with
  | foreign id name =>
    simp only [ofValue, Graph.ordered]
    cases g.enumValue id with
    | none => rfl
    | some w => cases w <;> rfl
  | _ => rfl

end KeyText

/-! ## Forms in order -/

/-- The form with the members of every object in order. -/
def Form.ordered (order : Value → Bytes) : Form → Form
  | .items vs => .items (Value.orderedItems order vs)
  | .members ms => .members (Members.inOrder order (Value.orderedMembers order ms))
  | .level w => .level (w.ordered order)
  | form => form

namespace Lookup

/-- The same, with the members of every object in order. -/
def ordered (order : Value → Bytes) (l : Lookup) : Lookup where
  options := l.options
  graph := l.graph.ordered order
  hook := l.hook.map fun f v => (f v).map (Value.ordered order)

variable {l : Lookup} {order : Value → Bytes}

theorem form_ordered (v : Value) : (l.ordered order).encoder.form (v.ordered order) =
    (l.encoder.form v).ordered order := by
  have hd : (l.ordered order).encoder.options = l.encoder.options := rfl
  have hg : (l.ordered order).encoder.graph = l.encoder.graph.ordered order := rfl
  cases v with
  | foreign id name =>
    simp only [Value.ordered, Encoder.form, Encoder.fields?, hd, hg, Graph.ordered]
    cases l.encoder.graph.enumValue id with
    | some w => rfl
    | none =>
      cases l.encoder.options.passthroughDataclass with
      | true => rfl
      | false =>
        cases l.encoder.graph.fields id <;> rfl
  | dateTime _ | date _ | time _ =>
    simp only [Value.ordered, Encoder.form, hd]
    split <;> rfl
  | _ => rfl

end Lookup

/-! ## What is written -/

namespace Options

variable {o o' : Options}

/-- Keys and what stands under them, in the order of the members. -/
theorem arrange_inOrder {β : Type} {order : Value → Bytes} {ms : Members} (hs : o.sortKeys = false)
    (hs' : o'.sortKeys = true) {K : Value × Value → KeyText} (B : Value × Value → β)
    (hK : ∀ m ∈ ms, order m.1 = (K m).bytes) :
    o.arrange ((Members.inOrder order ms).map fun m => (K m, B m)) =
      o'.arrange (ms.map fun m => (K m, B m)) := by
  rw [arrange, arrange, hs, hs', if_neg Bool.false_ne_true, if_pos rfl]
  refine List.map_mergeSort (f := fun m => (K m, B m)) fun a ha b hb => ?_
  rw [hK a ha, hK b hb]

end Options

namespace Lookup

variable {l : Lookup} {o' : Options} {order : Value → Bytes}
  {recur recur' : Path → Value → TextM Unit Bytes} {p : Path} {b : Bytes}

/-- Members are put in order under `o'` and not under the options of `l`, which are the same
otherwise; and `order` is the order of the keys that have a text. -/
structure Sorts (l : Lookup) (o' : Options) (order : Value → Bytes) : Prop where
  before : l.options.sortKeys = false
  after : o'.sortKeys = true
  same : l.options.AgreeBut [.sortKeys] o'
  order {key : Value} {k : KeyText} (h : KeyText.ofValue l.graph l.options key = .ok k) :
    order key = k.bytes

section

variable (h : l.Sorts o' order)
  (ih : ∀ p v b, Gives (recur p v) b ↔ Gives (recur' p (v.ordered order)) b)
include h ih

theorem gives_arrayText_ordered (vs : List Value) :
    Gives ((l.under o').encoder.arrayText recur p vs) b ↔
      Gives ((l.ordered order).encoder.arrayText recur' p (Value.orderedItems order vs)) b := by
  have hindent : o'.indent2 = l.options.indent2 := h.same .indent2 (by decide)
  have hlayout : (l.under o').encoder.options.bracketed =
      (l.ordered order).encoder.options.bracketed := Options.bracketed_congr hindent
  rw [Value.orderedItems_eq_map, ← List.map_id vs, List.map_map, gives_arrayText_iff,
    gives_arrayText_iff, hlayout]
  simp only [ih, id, Function.comp_apply]

theorem gives_objectText_ordered (ms : Members) :
    Gives ((l.under o').encoder.objectText recur p ms) b ↔
      Gives ((l.ordered order).encoder.objectText recur' p
        (Members.inOrder order (Value.orderedMembers order ms))) b := by
  have hindent : o'.indent2 = l.options.indent2 := h.same .indent2 (by decide)
  have hlayout : (l.under o').encoder.options.bracketed =
      (l.ordered order).encoder.options.bracketed := Options.bracketed_congr hindent
  have hmember : (l.under o').encoder.options.memberBytes =
      (l.ordered order).encoder.options.memberBytes :=
    Options.memberBytes_congr hindent (h.same .asciiOnly (by decide))
  have hkeys : KeyText.ofValue (l.ordered order).encoder.graph (l.ordered order).encoder.options =
      KeyText.ofValue l.graph l.options := KeyText.ofValue_ordered _ _ _
  have hkeys' : KeyText.ofValue (l.under o').encoder.graph (l.under o').encoder.options =
      KeyText.ofValue l.graph l.options := h.same.ofValue (by decide) l.graph
  have hms : (ms.map fun m => (m.1, m.2)) = ms := List.map_id' ms
  rw [Value.inOrder_orderedMembers, ← hms, gives_objectText_iff, hms, gives_objectText_iff, hlayout,
    hmember, hkeys, hkeys']
  simp only [ih, Members.mem_inOrder]
  refine and_congr_right fun _ => exists_congr fun K => exists_congr fun B =>
    and_congr_right fun hK => and_congr_right fun _ => ?_
  have harrange : (l.ordered order).encoder.options.arrange
      ((Members.inOrder order ms).map fun m => (K m, B m)) =
        (l.under o').encoder.options.arrange (ms.map fun m => (K m, B m)) :=
    Options.arrange_inOrder h.before h.after B fun m hm => h.order (hK m hm)
  rw [harrange]

omit h in
theorem gives_replacedText_ordered {v : Value} (hv : l.encoder.form v = .asked) :
    Gives ((l.under o').encoder.replacedText recur p v) b ↔
      Gives ((l.ordered order).encoder.replacedText recur' p (v.ordered order)) b := by
  rw [Value.ordered_of_form order (.inr hv), Encoder.replacedText, Encoder.replacedText]
  simp only [encoder, under, ordered]
  cases l.hook with
  | none => rfl
  | some f =>
    simp only [Option.map_some, TextM.ask_ofFunction_bind]
    split
    · rfl
    · cases f v with
      | none => rfl
      | some w => exact ih _ w b

theorem gives_formText_ordered (v : Value) :
    Gives ((l.under o').encoder.formText recur p v) b ↔
      Gives ((l.ordered order).encoder.formText recur' p (v.ordered order)) b := by
  rw [Encoder.formText, Encoder.formText, form_ordered,
    form_under (h.same.lookUpAlike (by decide) (by decide))]
  cases hf : l.encoder.form v with
  | leaf =>
    have htext : v.leafText o' = v.leafText l.options :=
      h.same.leafText (by decide) (by decide) fun _ _ => h.same .asciiOnly (by decide)
    rw [Value.ordered_of_form order (.inl hf)]
    exact iff_of_eq (congrArg (fun t => Gives (TextM.lift t) b) htext)
  | items vs => exact gives_arrayText_ordered h ih vs
  | members ms => exact gives_objectText_ordered h ih ms
  | level w =>
    simp only [Form.ordered, Encoder.deeperText]
    split
    · exact ih _ w b
    · rfl
  | asked => exact gives_replacedText_ordered ih hf

end

/-- **What is written in order is what is written of the value in order.** -/
theorem gives_text_ordered (h : l.Sorts o' order) (budget : Nat) (p : Path) (v : Value) (b : Bytes) :
    Gives ((l.under o').encoder.text budget p v) b ↔
      Gives ((l.ordered order).encoder.text budget p (v.ordered order)) b := by
  induction budget generalizing p v b with
  | zero => rfl
  | succ budget ih =>
    rw [Encoder.text_succ, Encoder.text_succ, Encoder.openedText, Encoder.openedText,
      Value.handle?_ordered]
    cases v.handle? with
    | none => exact gives_formText_ordered h ih v
    | some i =>
      simp only [Encoder.openingText]
      split
      · rfl
      · exact gives_formText_ordered h ih v

/-- **In order or not, the one is written just if the other is.** -/
theorem carries_written (h : l.options.AgreeBut [.sortKeys] o') :
    l.Carries o' fun _ t u => (∃ b, Gives t b) ↔ ∃ b, Gives u b where
  lookUp := h.lookUpAlike (by decide) (by decide)
  stop _ _ := .rfl
  leaf _ := by
    rw [h.leafText (by decide) (by decide) fun _ _ => h .asciiOnly (by decide)]
  array _ hvs := by
    rw [exists_gives_arrayText_iff, exists_gives_arrayText_iff]
    exact and_congr_right fun _ => forall₂_congr hvs
  object _ hms := by
    have hkeys : KeyText.ofValue (l.under o').encoder.graph (l.under o').encoder.options =
        KeyText.ofValue l.encoder.graph l.encoder.options := h.ofValue (by decide) l.graph
    rw [exists_gives_objectText_iff, exists_gives_objectText_iff, hkeys]
    exact and_congr_right fun _ => forall₂_congr fun m hm => and_congr_right fun _ => hms m hm
  found _ hw := hw

end Lookup

namespace Codec

variable {mask : UInt32} {o : Options} {g : Graph} {hook : Option (Value → Option Value)} {v : Value}

theorem exists_encodeWith_iff (hm : Options.ofMask? mask = .ok o) :
    (∃ b, (encodeWith mask g (hook.map Hook.ofFunction) () v).1 = .ok b) ↔
      ∃ c, Gives ((Lookup.mk o g hook).encoder.text Encoder.budget {} v) c := by
  simp only [encodeWith_eq_ok_iff hm]
  exact ⟨fun ⟨_, c, hc, _⟩ => ⟨c, hc⟩, fun ⟨c, hc⟩ => ⟨_, c, hc, rfl⟩⟩

/-- **With its members in order a value is written just if it is without. What is written then is what
is written without, of the value with the members of every object in the order of the bytes of their
keys: members of equal keys stand as they did, and none is lost or there twice.** -/
theorem encodeWith_sortKeys (hm : Options.ofMask? mask = .ok o) (hs : o.sortKeys = false) :
    let sorted := (encodeWith (mask ||| Flag.sortKeys.bit) g (hook.map Hook.ofFunction) () v).1
    let order := KeyText.order g o
    let before := (Lookup.mk o g hook).ordered order
    ((∃ b, sorted = .ok b) ↔ ∃ b, (encodeWith mask g (hook.map Hook.ofFunction) () v).1 = .ok b) ∧
    (∀ b, sorted = .ok b ↔ (encodeWith mask before.graph (before.hook.map Hook.ofFunction) ()
      (v.ordered order)).1 = .ok b) ∧
    ∀ ms, Members.IsInOrder order ms (Members.inOrder order ms) ∧
      (Value.object ms).ordered order =
        .object ((Members.inOrder order ms).map fun m => (m.1, m.2.ordered order)) := by
  obtain ⟨o', hm', hs', hagree⟩ := Options.exists_agreeBut hm .sortKeys
  have hdocument : document o' = document o := document_congr (hagree .appendNewline (by decide))
  have hsorts : (Lookup.mk o g hook).Sorts o' (KeyText.order g o) :=
    ⟨hs, hs', hagree, KeyText.order_eq⟩
  have hwritten := (Lookup.carries_written (l := ⟨o, g, hook⟩) hagree).text Encoder.budget {} v
  refine ⟨?_, fun b => ?_, fun ms => ⟨Members.isInOrder_inOrder _ ms, Value.ordered_object _ ms⟩⟩
  · rw [exists_encodeWith_iff hm, exists_encodeWith_iff hm']
    exact hwritten.symm
  · rw [encodeWith_eq_ok_iff hm, encodeWith_eq_ok_iff hm', hdocument]
    exact exists_congr fun c => and_congr_left fun _ => Lookup.gives_text_ordered hsorts _ _ _ c

/-- A node and an answer of the hook in order, under two keys of one text, which stay as they
stood. -/
theorem encodeWith_sortKeys_of_equal_keys :
    let letter (id : ForeignId) : Option Value := if id.index = 0 then some (.str "k") else none
    let g : Graph := ⟨fun _ => .object [(.str "b", .null), (.str "a", .null)], letter, fun _ => none⟩
    let hook : Value → Option Value := fun _ => some (.object [(.str "d", .null), (.str "c", .null)])
    let v := Value.object [(.str "k", .shared ⟨0⟩), (.foreign ⟨0⟩ "letter", .foreign ⟨1⟩ "decimal")]
    (encodeWith (0x4 ||| Flag.sortKeys.bit) g (some (Hook.ofFunction hook)) () v).1 =
      .ok (Utf8.encode ("\x7b\"k\":\x7b\"a\":null,\"b\":null\x7d," ++
        "\"k\":\x7b\"c\":null,\"d\":null\x7d\x7d")) := by
  intro letter g hook v
  have h := @encodeWith_sortKeys 0x4 { nonStrKeys := true } g (some hook) v rfl rfl
  refine (h.2.1 _).2 ?_
  simp only [Lookup.ordered, Graph.ordered, Option.map_some, g, hook, v, Value.ordered,
    Value.orderedMembers, Members.inOrder_pair]
  rw [encodeWith_eq (o := { nonStrKeys := true }) rfl]
  rfl

end Codec

end JsonCodec
