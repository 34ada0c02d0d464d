/-
What a document says that was written from a tree (`Value.meaning`), and that a reader takes it so
(`decode_encodeWith`).

A value is read back where the document has a literal for it, and else as its text. Keys are read
back as text, and of members whose keys have one text the last counts. The writer opens a level
wherever the reader does, and more of them, so that the bound of the one keeps the bound of the
other.
-/
import JsonCodec.Proofs.Document.Acceptance
import JsonCodec.Proofs.Encoder.Layout
import JsonCodec.Proofs.Encoder.TreeWriting

namespace JsonCodec

open Ascii Grammar NumberLiteral

/-- What succeeds does so step by step. -/
theorem exists_ok_of_bind {ε α β : Type} {x : Except ε α} {f : α → Except ε β} {b : β}
    (h : x >>= f = .ok b) : ∃ a, x = .ok a ∧ f a = .ok b := by
  cases x with
  | error y => cases h
  | ok a => exact ⟨a, rfl, h⟩

namespace Value

mutual

/-- What the document of a tree says. -/
def meaning (g : Graph) (o : Options) : Value → Except EncodeError Value
  | .array vs => do return .array (← itemMeanings g o vs)
  | .object ms => do
    let ms ← memberMeanings g o ms
    return objectOf ((o.arrange ms).map fun m => (m.1.name, m.2))
  | .bigInt n => .ok (ofInt n.value)
  | .dateTime t => do return .str (asciiText (← t.text o))
  | .date d => .ok (.str (asciiText d.text))
  | .time t => .ok (.str (asciiText (t.text o)))
  | .uuid id => .ok (.str (asciiText id.text))
  | .fragment raw => .error (.unsupported (Value.fragment raw).typeName)
  | .shared node => .error (.unsupported (Value.shared node).typeName)
  | .foreign _ name => .error (.unsupported name)
  | v => .ok v

/-- What items say. -/
def itemMeanings (g : Graph) (o : Options) : List Value → Except EncodeError (List Value)
  | [] => .ok []
  | v :: vs => do return (← meaning g o v) :: (← itemMeanings g o vs)

/-- The text of keys, and what the values say. -/
def memberMeanings (g : Graph) (o : Options) : Members → Except EncodeError (List (KeyText × Value))
  | [] => .ok []
  | (key, v) :: ms => do
    return (← KeyText.ofValue g o key, ← meaning g o v) :: (← memberMeanings g o ms)

end

variable {g : Graph} {o : Options} {ι : Type} {xs : List ι} {tree W : ι → Value}

theorem meaning_array (h : ∀ x ∈ xs, (tree x).meaning g o = .ok (W x)) :
    (Value.array (xs.map tree)).meaning g o = .ok (.array (xs.map W)) := by
  have hitems : itemMeanings g o (xs.map tree) = .ok (xs.map W) := by
    induction xs with
    | nil => rfl
    | cons x xs ih =>
      obtain ⟨hx, hxs⟩ := List.forall_mem_cons.1 h
      rw [List.map_cons, itemMeanings, hx, ih hxs]
      rfl
  rw [meaning, hitems]
  rfl

theorem meaning_object (key : ι → Value) {K : ι → KeyText}
    (hK : ∀ x ∈ xs, KeyText.ofValue g o (key x) = .ok (K x))
    (h : ∀ x ∈ xs, (tree x).meaning g o = .ok (W x)) :
    (Value.object (xs.map fun x => (key x, tree x))).meaning g o =
      .ok (objectOf ((o.arrange (xs.map fun x => (K x, W x))).map fun m => (m.1.name, m.2))) := by
  have hmembers : memberMeanings g o (xs.map fun x => (key x, tree x)) =
      .ok (xs.map fun x => (K x, W x)) := by
    induction xs with
    | nil => rfl
    | cons x xs ih =>
      obtain ⟨hk, hks⟩ := List.forall_mem_cons.1 hK
      obtain ⟨hx, hxs⟩ := List.forall_mem_cons.1 h
      rw [List.map_cons, memberMeanings, hk, hx, ih hks hxs]
      rfl
  rw [meaning, hmembers]
  rfl

/-- Items say something only if each of them does. -/
theorem exists_of_itemMeanings {vs ws : List Value} (h : itemMeanings g o vs = .ok ws) :
    ∀ v ∈ vs, ∃ w, v.meaning g o = .ok w := by
  induction vs generalizing ws with
  | nil => exact List.forall_mem_nil _
  | cons v vs ih =>
    rw [itemMeanings] at h
    obtain ⟨w, hw, h⟩ := exists_ok_of_bind h
    obtain ⟨ws, hws, -⟩ := exists_ok_of_bind h
    exact List.forall_mem_cons.2 ⟨⟨w, hw⟩, ih hws⟩

theorem exists_of_memberMeanings {ms : Members} {ks : List (KeyText × Value)}
    (h : memberMeanings g o ms = .ok ks) : ∀ m ∈ ms, ∃ w, m.2.meaning g o = .ok w := by
  induction ms generalizing ks with
  | nil => exact List.forall_mem_nil _
  | cons m ms ih =>
    obtain ⟨key, v⟩ := m
    rw [memberMeanings] at h
    obtain ⟨k, hk, h⟩ := exists_ok_of_bind h
    obtain ⟨w, hw, h⟩ := exists_ok_of_bind h
    obtain ⟨ks, hks, -⟩ := exists_ok_of_bind h
    exact List.forall_mem_cons.2 ⟨⟨w, hw⟩, ih hks⟩

end Value

namespace Lookup

open Encoder Gives

variable {l : Lookup} {budget : Nat} {p : Path} {v : Value} {b : Bytes}

/-- A temporal value that does not go to the hook is written as its text. -/
theorem exists_of_gives_temporalText {recur : Path → Value → TextM Unit Bytes}
    {text : Except EncodeError Bytes} (hl : (!l.options.passthroughDatetime) = true)
    (hplain : ∀ c, text = .ok c → PlainBytes c)
    (h : Gives (l.encoder.temporalText recur p v text) b) :
    ∃ c, text = .ok c ∧ ∀ levels, Denotes exponentSize levels b (.str (asciiText c)) := by
  rw [Bool.not_eq_true'] at hl
  rw [temporalText, options_encoder, hl] at h
  obtain ⟨c, hc, hb⟩ := bind_iff.1 h
  cases pure_iff.1 hb
  have hc := lift_iff.1 hc
  exact ⟨c, hc, fun _ => .text (text_of_plainBytes (hplain c hc))⟩

/-- Whether the text of a leaf is one of the grammar: a fragment is any bytes, and the name of a
float without a number is none. -/
def isReadable (l : Lookup) : Value → Bool
  | .fragment _ => false
  | .float x => x.isFinite || !l.options.allowNonFinite
  | _ => true

/-- A leaf denotes what it means. -/
theorem exists_meaning_of_isLeaf {recur : Path → Value → TextM Unit Bytes}
    (hr : l.isReadable v = true) (hl : l.isLeaf v = true) (h : Gives (l.encoder.textWith recur p v) b) :
    ∃ w, v.meaning l.graph l.options = .ok w ∧ ∀ levels, Denotes exponentSize levels b w := by
  cases v with
  | null =>
    cases pure_iff.1 h
    exact ⟨.null, rfl, fun _ => .null⟩
  | bool b =>
    cases b with
    | true =>
      cases pure_iff.1 h
      exact ⟨.bool true, rfl, fun _ => .true⟩
    | false =>
      cases pure_iff.1 h
      exact ⟨.bool false, rfl, fun _ => .false⟩
  | int n =>
    have hb := lift_iff.1 h
    rw [Scalar.int] at hb
    split at hb
    · cases hb
    · cases hb
      exact ⟨.int n, rfl, fun levels => Value.ofInt_toInt n ▸ denotes_digits levels n.toInt⟩
  | bigInt n =>
    have hb := lift_iff.1 h
    rw [Scalar.bigInt] at hb
    split at hb
    · cases hb
    · cases hb
      exact ⟨.ofInt n.value, rfl, fun levels => denotes_digits levels n.value⟩
  | float x =>
    have hb := lift_iff.1 h
    rw [Scalar.float, options_encoder] at hb
    rw [isReadable, Bool.or_eq_true, Bool.not_eq_true'] at hr
    rcases hr with hx | hn
    · rw [if_pos hx] at hb
      cases hb
      exact ⟨.float x, rfl, denotes_float hx⟩
    · rw [hn] at hb
      split at hb
      · next hx =>
        cases hb
        exact ⟨.float x, rfl, denotes_float hx⟩
      · cases hb
  | str text =>
    cases pure_iff.1 h
    exact ⟨.str text, rfl, fun _ => .text (text_literal _ text)⟩
  | dateTime t =>
    obtain ⟨c, hc, hd⟩ := exists_of_gives_temporalText hl (fun _ => PlainBytes.dateTime) h
    rw [options_encoder] at hc
    exact ⟨.str (asciiText c), by rw [Value.meaning, hc]; rfl, hd⟩
  | date d =>
    obtain ⟨c, hc, hd⟩ :=
      exists_of_gives_temporalText hl (fun c hc => Except.ok.inj hc ▸ .date d) h
    cases hc
    exact ⟨_, rfl, hd⟩
  | time t =>
    obtain ⟨c, hc, hd⟩ :=
      exists_of_gives_temporalText hl (fun c hc => Except.ok.inj hc ▸ .time t _) h
    cases hc
    exact ⟨_, rfl, hd⟩
  | uuid id =>
    cases pure_iff.1 h
    exact ⟨_, rfl, fun _ => .text (text_of_plainBytes (.uuid id))⟩
  | fragment raw => cases hr
  | array | object | shared | foreign => cases hl

/-- `b` says what the tree of `v` means, in no more brackets than there are levels left. -/
def Says (l : Lookup) (p : Path) (v : Value) (b : Bytes) : Prop :=
  ∃ tree w, l.Unfolds v tree ∧ tree.meaning l.graph l.options = .ok w ∧
    ∀ levels, Limits.maxDepth - p.depth ≤ levels → Denotes exponentSize levels b w

theorem Says.found {w : Value} {q : Path} (h : l.Says q w b) (hw : l.find? v = some w)
    (hd : p.depth ≤ q.depth) : l.Says p v b := by
  obtain ⟨tree, w, hunfold, hmean, hdenote⟩ := h
  exact ⟨tree, w, .found hw hunfold, hmean, fun levels hl => hdenote levels (by omega)⟩

/-- All that is met on the way down from `v` has a text of the grammar. -/
def Readable (l : Lookup) (v : Value) : Prop := ∀ w, l.Reaches v w → l.isReadable w = true

theorem Readable.of_leads {w : Value} (h : l.Readable v) (hw : l.Leads v w) : l.Readable w :=
  fun u hu => h u (.head hw hu)

section Containers

variable (ih : ∀ p v b, l.Readable v → Gives (l.encoder.text budget p v) b → l.Says p v b)
include ih

theorem says_array {vs : List Value} (hr : l.Readable (.array vs))
    (h : Gives (l.encoder.arrayText (l.encoder.text budget) p vs) b) :
    l.Says p (.array vs) b := by
  obtain ⟨hd, B, hB, rfl⟩ := exists_of_gives_arrayText h
  have hsays : ∀ v ∈ vs, l.Says p.deeper v (B v) :=
    fun v hv => ih _ _ _ (hr.of_leads (.item hv)) (hB v hv)
  choose! tree w hunfold hmean hdenote using hsays
  refine ⟨.array (vs.map tree), .array (vs.map w), ?_, Value.meaning_array hmean, ?_⟩
  · have harray : l.Unfolds (.array (vs.map id)) (.array (vs.map tree)) :=
      Unfolds.array_map hunfold
    rwa [List.map_id] at harray
  · intro levels hl
    obtain ⟨levels, rfl⟩ : ∃ k, levels = k + 1 := ⟨levels - 1, by omega⟩
    refine denotes_array vs fun v hv => hdenote v hv levels ?_
    simp only [Path.deeper]
    omega

theorem says_object {ms : Members} (hr : l.Readable (.object ms))
    (h : Gives (l.encoder.objectText (l.encoder.text budget) p ms) b) :
    l.Says p (.object ms) b := by
  obtain ⟨hd, K, B, hK, hB, rfl⟩ := exists_of_gives_objectText h
  have hsays : ∀ m ∈ ms, l.Says p.deeper m.2 (B m) :=
    fun m hm => ih _ _ _ (hr.of_leads (.member hm)) (hB m hm)
  choose! tree w hunfold hmean hdenote using hsays
  have hobject : (Value.object (ms.map fun m => (m.1, tree m))).meaning l.graph l.options = .ok _ :=
    Value.meaning_object Prod.fst hK hmean
  refine ⟨_, _, ?_, hobject, ?_⟩
  · have hobject : l.Unfolds (.object (ms.map fun m => (m.1, m.2)))
        (.object (ms.map fun m => (m.1, tree m))) := Unfolds.object_map Prod.fst hunfold
    rwa [List.map_id'] at hobject
  · intro levels hl
    obtain ⟨levels, rfl⟩ : ∃ k, levels = k + 1 := ⟨levels - 1, by omega⟩
    rw [options_encoder, l.options.arrange_map_map B, l.options.arrange_map_map w, List.map_map,
      List.map_map]
    refine denotes_object _ (fun k hk => ?_) fun k hk => ?_
    · obtain ⟨m, hm, rfl⟩ := List.mem_map.1 ((l.options.mem_arrange).1 hk)
      exact KeyText.isSound_ofValue (hK m hm)
    · obtain ⟨m, hm, rfl⟩ := List.mem_map.1 ((l.options.mem_arrange).1 hk)
      refine hdenote m hm levels ?_
      simp only [Path.deeper]
      omega

end Containers

/-- **What is written says what the tree means.** -/
theorem says_of_gives (budget : Nat) (p : Path) (v : Value) (b : Bytes) (hr : l.Readable v)
    (h : Gives (l.encoder.text budget p v) b) : l.Says p v b := by
  induction budget generalizing p v b with
  | zero => cases h ()
  | succ budget ih =>
    cases written_of_gives h with
    | leaf hl hb =>
      obtain ⟨w, hmean, hdenote⟩ := exists_meaning_of_isLeaf (hr v .refl) hl hb
      exact ⟨v, w, .leaf hl, hmean, fun levels _ => hdenote levels⟩
    | array hb => exact says_array ih hr hb
    | object hb => exact says_object ih hr hb
    | found hw hd hb => exact (ih _ _ _ (hr.of_leads (.found hw)) hb).found hw hd
    | fields hw hd hb => exact (says_object ih (hr.of_leads (.found hw)) hb).found hw hd

/-- Nowhere down from `v` is there a fragment. -/
def NoFragment (l : Lookup) (v : Value) : Prop := ∀ raw, ¬l.Reaches v (.fragment raw)

/-- What holds of `v`, and of all that such a value leads to, holds of all that is met. -/
theorem NoFragment.of_closed (P : Value → Prop) (hv : P v) (hstep : ∀ u w, P u → l.Leads u w → P w)
    (hf : ∀ raw, ¬P (.fragment raw)) : l.NoFragment v := by
  have hP : ∀ w, l.Reaches v w → P w := by
    intro w hw
    induction hw with
    | refl => exact hv
    | tail _ h ih => exact hstep _ _ ih h
  exact fun raw hr => hf raw (hP _ hr)

theorem NoFragment.readable (h : l.NoFragment v) (hn : l.options.allowNonFinite = false) :
    l.Readable v := by
  intro w hw
  cases w with
  | fragment raw => exact absurd hw (h raw)
  | float x => rw [isReadable, hn, Bool.not_false, Bool.or_true]
  | _ => rfl

end Lookup

namespace Codec

open Lookup

/-- A line feed behind a document takes nothing from it. -/
theorem spaced_document {o : Options} {n : Nat} {b : Bytes} {w : Value}
    (h : Denotes exponentSize n b w) :
    Encoder.document o b ≠ [] ∧ Spaced exponentSize n (Encoder.document o b) w := by
  obtain ⟨a, ha, -⟩ := Document.isValueByte_of_denotes h
  rw [Encoder.document]
  split
  · refine ⟨List.append_ne_nil_of_right_ne_nil _ (List.cons_ne_nil _ _), ?_⟩
    exact spaced_of_denotes (List.forall_mem_nil _) (List.forall_mem_singleton.2 rfl) h
  · have hnil := spaced_of_denotes (List.forall_mem_nil _) (List.forall_mem_nil _) h
    rw [List.append_nil] at hnil
    refine ⟨?_, hnil⟩
    rintro rfl
    cases ha

/-- A document that denotes a value is read as that value, with a line feed behind it or without. -/
theorem decode_document {o : Options} {b : Bytes} {w : Value}
    (h : Denotes exponentSize Limits.maxDepth b w)
    (hsize : (Encoder.document o b).length ≤ Limits.maxInputSize) :
    decode (Encoder.document o b) = .ok w := by
  obtain ⟨hne, hspaced⟩ := spaced_document (o := o) h
  have hread : Document.decode (Encoder.document o b) = .ok w := by
    rw [Document.decode, Document.decodeWithin_eq_ok_iff, Document.read_eq_ok_iff]
    exact ⟨hne, hsize, hspaced⟩
  rw [decode, hread]

/-- **What is written without a fragment is read back, as what the tree means.** -/
theorem decode_encodeWith {mask : UInt32} {o : Options} (hm : Options.ofMask? mask = .ok o)
    (hn : o.allowNonFinite = false) {g : Graph} {hook : Option (Value → Option Value)} {v : Value}
    (hf : (Lookup.mk o g hook).NoFragment v) {b : Bytes}
    (h : (encodeWith mask g (hook.map Hook.ofFunction) () v).1 = .ok b)
    (hsize : b.length ≤ Limits.maxInputSize) :
    ∃ tree w, (∀ t, (Lookup.mk o g hook).Unfolds v t ↔ t = tree) ∧
      tree.meaning g o = .ok w ∧ decode b = .ok w := by
  obtain ⟨c, hc, rfl⟩ := (encodeWith_eq_ok_iff hm).1 h
  obtain ⟨tree, w, hunfold, hmean, hdenote⟩ := says_of_gives _ _ _ _ (hf.readable hn) hc
  exact ⟨tree, w, fun t => ⟨hunfold.unique, fun ht => ht ▸ hunfold⟩, hmean,
    decode_document (hdenote _ (Nat.le_refl _)) hsize⟩

/-- A text key, a key that has the same text, and a node. -/
def equalKeys : Value := .object [(.str "true", .null), (.bool true, .shared ⟨0⟩)]

theorem noFragment_equalKeys : (Lookup.mk { nonStrKeys := true }
    (Graph.empty.setNode ⟨0⟩ (.bool true)) none).NoFragment equalKeys := by
  refine .of_closed (fun u => u = equalKeys ∨ u = .null ∨ u = .shared ⟨0⟩ ∨ u = .bool true)
    (.inl rfl) ?_ fun raw h => ?_
  · rintro u w (rfl | rfl | rfl | rfl) hw
    · rw [equalKeys] at hw
      cases hw with
      | member hm =>
        rcases List.mem_cons.1 hm with rfl | hm
        · exact .inr (.inl rfl)
        · obtain rfl := List.mem_singleton.1 hm
          exact .inr (.inr (.inl rfl))
      | found hf => cases hf
    · cases hw with
      | found hf => cases hf
    · cases hw with
      | found hf =>
        cases hf
        exact .inr (.inr (.inr rfl))
    · cases hw with
      | found hf => cases hf
  · rcases h with h | h | h | h <;> cases h

theorem decode_encodeWith_equalKeys :
    let o : Options := { nonStrKeys := true }
    let g := Graph.empty.setNode ⟨0⟩ (.bool true)
    let b := Utf8.encode "\x7b\"true\":null,\"true\":true\x7d"
    (encodeWith 0x4 g none () equalKeys).1 = .ok b ∧
      ∃ tree w, (∀ t, (Lookup.mk o g none).Unfolds equalKeys t ↔ t = tree) ∧
        tree.meaning g o = .ok w ∧ decode b = .ok w := by
  intro o g b
  have hencode : (encodeWith 0x4 g none () equalKeys).1 = .ok b := by
    rw [encodeWith_eq (o := o) rfl]
    rfl
  exact ⟨hencode,
    @decode_encodeWith 0x4 o rfl rfl g none _ noFragment_equalKeys b hencode (by decide)⟩

end Codec

end JsonCodec
