/-
Keys beside values: a key has the text that its value is written as, between quotes where that text
has none (`KeyText.ofValue_as_value`).

Keys are put into text without the encoder, by a dispatch of their own, and are read back as text. So
for each kind of value the text of the key is set beside the text of the leaf (`KeyText.Wraps`).
-/
import JsonCodec.Proofs.Encoder.Forms
import JsonCodec.Proofs.Encoder.Session
import JsonCodec.Proofs.Encoder.Tokens
import JsonCodec.Proofs.Image

namespace JsonCodec

open Ascii Grammar

/-- Whether a value of this kind may be a key: it has a text of its own, which no one else made. -/
def Value.isScalar : Value → Bool
  | .null | .bool _ | .int _ | .bigInt _ | .float _ | .str _ => true
  | .dateTime _ | .date _ | .time _ | .uuid _ => true
  | .array _ | .object _ | .fragment _ | .shared _ | .foreign _ _ => false

/-- The value that a key has its text from: that which an application value stands for, unless that
is an application value too. -/
def Graph.keyValue (g : Graph) : Value → Value
  | .foreign id name =>
    match g.enumValue id with
    | none | some (.foreign _ _) => .foreign id name
    | some v => v
  | key => key

theorem Utf8.encode_asciiText {bytes : Bytes} (h : PlainBytes bytes) :
    Utf8.encode (asciiText bytes) = bytes := by
  rw [Utf8.encode, asciiText, String.toList_ofList]
  induction bytes with
  | nil => rfl
  | cons b bytes ih =>
    obtain ⟨hb, hbytes⟩ := PlainBytes.cons_iff.1 h
    simp only [isPlainByte, Bool.and_eq_true, decide_eq_true_eq] at hb
    have hlt : b.toNat < 0x80 := UInt8.lt_iff_toNat_lt.1 hb.1.1.2
    rw [List.map_cons, List.flatMap_cons, encodeChar_asciiChar hlt, ih hbytes]
    rfl

namespace KeyText

variable {g : Graph} {o : Options} {k : KeyText} {key v : Value} {b : Bytes} {x : EncodeError}

/-- The bytes that order keys are those of the text that a reader gets back. -/
theorem encode_name (h : k.IsSound) : Utf8.encode k.name = k.bytes := by
  cases k with
  | own text | derived text => rfl
  | plain bytes => exact Utf8.encode_asciiText h

/-! ## The two texts of a scalar -/

/-- The key of a value that is written as `b`. -/
inductive Wraps (o : Options) : KeyText → Bytes → Prop
  /-- A word is put between quotes. -/
  | word {b : Bytes} (h : PlainBytes b) : Wraps o (plain b) b
  /-- What stands between quotes as a value was put there. -/
  | between {b : Bytes} (h : PlainBytes b) : Wraps o (plain b) (JsonCodec.quoted b)
  | own (text : String) : Wraps o (own text) (Quoted.literal o.asciiOnly text)
  | derived (text : String) : Wraps o (derived text) (Quoted.literal o.asciiOnly text)

/-- The two are refused for the same reason, or have texts that belong together. -/
inductive Agrees (o : Options) : Except EncodeError KeyText → Except EncodeError Bytes → Prop
  | error (x : EncodeError) : Agrees o (.error x) (.error x)
  | ok {k : KeyText} {b : Bytes} (h : Wraps o k b) : Agrees o (.ok k) (.ok b)

/-- What needs no escape has no quotes around it. -/
theorem not_text_of_plainBytes (h : PlainBytes b) : ¬∃ text, Text b text := by
  rintro ⟨text, ht⟩
  cases ht
  exact absurd (PlainBytes.cons_iff.1 h).1 (by decide)

/-- A quoted text is the key as it is. -/
theorem Wraps.quoted_of_text (h : Wraps o k b) (hb : ∃ text, Text b text) : k.quoted o = b := by
  cases h with
  | word hplain => exact absurd hb (not_text_of_plainBytes hplain)
  | between | own | derived => rfl

/-- Any other text is put between quotes. -/
theorem Wraps.quoted_of_not_text (h : Wraps o k b) (hb : ¬∃ text, Text b text) :
    k.quoted o = JsonCodec.quoted b := by
  cases h with
  | word => rfl
  | between hplain => exact absurd ⟨_, text_of_plainBytes hplain⟩ hb
  | own text | derived text => exact absurd ⟨_, text_literal o.asciiOnly text⟩ hb

theorem Wraps.derive (h : Wraps o k b) : Wraps o k.derive b := by
  cases h with
  | word hplain => exact .word hplain
  | between hplain => exact .between hplain
  | own text | derived text => exact .derived text

theorem Agrees.map_derive {r : Except EncodeError KeyText} {s : Except EncodeError Bytes}
    (h : Agrees o r s) : Agrees o (r.map KeyText.derive) s := by
  cases h with
  | error x => exact .error x
  | ok h => exact .ok h.derive

theorem Agrees.error_iff {r : Except EncodeError KeyText} {s : Except EncodeError Bytes}
    (h : Agrees o r s) : r = .error x ↔ s = .error x := by
  cases h with
  | error y => simp only [Except.error.injEq]
  | ok h => constructor <;> intro h <;> cases h

theorem Agrees.exists_of_ok {s : Except EncodeError Bytes} (h : Agrees o (.ok k) s) :
    ∃ b, s = .ok b ∧ Wraps o k b := by
  cases h with
  | ok h => exact ⟨_, rfl, h⟩

/-- A text that is written as it is. -/
theorem agrees_word {r : Except EncodeError Bytes} (h : ∀ b, r = .ok b → PlainBytes b) :
    Agrees o (r.map plain) r := by
  cases r with
  | error x => exact .error x
  | ok b => exact .ok (.word (h b rfl))

/-- A text that a value has between quotes. -/
theorem agrees_between {r : Except EncodeError Bytes} (h : ∀ b, r = .ok b → PlainBytes b) :
    Agrees o (r.map plain) (r.map JsonCodec.quoted) := by
  cases r with
  | error x => exact .error x
  | ok b => exact .ok (.between (h b rfl))

theorem ofNative_eq_ofLeaf (hk : o.nonStrKeys = true) (hv : v.str? = none) :
    ofNative o v = ofLeaf o v := by
  cases v with
  | str text => cases hv
  | _ => simp only [ofNative, hk, if_true]

/-- **A scalar has the same text as a key and as a value, but for quotes.** -/
theorem agrees_ofNative (hk : o.nonStrKeys = true) (hi : o.strictInteger = false)
    (hv : v.isScalar = true) : Agrees o (ofNative o v) (v.leafText o) := by
  have word (b : Bytes) (h : PlainBytes b) : Agrees o (.ok (plain b)) (.ok b) := .ok (.word h)
  have between (b : Bytes) (h : PlainBytes b) :
      Agrees o (.ok (plain b)) (.ok (JsonCodec.quoted b)) := .ok (.between h)
  have closed {b : Bytes} (h : b.all isPlainByte = true) : PlainBytes b := List.all_eq_true.1 h
  cases v with
  | str text => exact .ok (.own text)
  | null =>
    rw [ofNative_eq_ofLeaf hk rfl]
    exact word _ (closed (by decide))
  | bool y =>
    rw [ofNative_eq_ofLeaf hk rfl]
    cases y with
    | true => exact word _ (closed (by decide))
    | false => exact word _ (closed (by decide))
  | int n =>
    rw [ofNative_eq_ofLeaf hk rfl, Value.leafText, Scalar.int, hi]
    exact word _ (.ofInt _)
  | bigInt n =>
    rw [ofNative_eq_ofLeaf hk rfl, Value.leafText, Scalar.bigInt, hi]
    exact word _ (.ofInt _)
  | float x =>
    rw [ofNative_eq_ofLeaf hk rfl]
    exact agrees_word fun _ => plainBytes_float
  | dateTime t =>
    rw [ofNative_eq_ofLeaf hk rfl]
    exact agrees_between fun _ => .dateTime
  | date d =>
    rw [ofNative_eq_ofLeaf hk rfl]
    exact between _ (.date d)
  | time t =>
    rw [ofNative_eq_ofLeaf hk rfl]
    exact between _ (.time t o)
  | uuid id =>
    rw [ofNative_eq_ofLeaf hk rfl]
    exact between _ (.uuid id)
  | array _ | object _ | fragment _ | shared _ | foreign _ _ => cases hv

/-- No other kind of value has a text as a key. -/
theorem ofNative_of_not_isScalar (hk : o.nonStrKeys = true) (hv : v.isScalar = false) :
    ofNative o v = .error (.invalidKey v.typeName) := by
  cases v with
  | array _ | object _ | fragment _ | shared _ | foreign _ _ => exact ofNative_eq_ofLeaf hk rfl
  | _ => cases hv

/-! ## Which value a key has its text from -/

theorem ofValue_foreign {id : ForeignId} {name : String} (hk : o.nonStrKeys = true) :
    ofValue g o (.foreign id name) = (ofNative o (g.keyValue (.foreign id name))).map derive := by
  have hself : ofNative o (.foreign id name) = .error (.invalidKey name) :=
    ofNative_eq_ofLeaf hk rfl
  rw [ofValue, if_pos hk, Graph.keyValue]
  cases g.enumValue id with
  | none => simp only [hself, Except.map]
  | some w =>
    cases w with
    | foreign _ _ => simp only [hself, Except.map]
    | _ => rfl

/-- A key without a scalar to have its text from has none. -/
theorem ofValue_of_not_isScalar (hk : o.nonStrKeys = true)
    (hv : (g.keyValue key).isScalar = false) :
    ofValue g o key = .error (.invalidKey (g.keyValue key).typeName) := by
  have hnative := ofNative_of_not_isScalar hk hv
  cases key with
  | foreign id name =>
    rw [ofValue_foreign hk, hnative]
    rfl
  | _ => exact hnative

/-- A key has the text of its value. -/
theorem agrees_ofValue (hk : o.nonStrKeys = true) (hi : o.strictInteger = false)
    (hv : (g.keyValue key).isScalar = true) :
    Agrees o (ofValue g o key) ((g.keyValue key).leafText o) := by
  have hnative := agrees_ofNative hk hi hv
  cases key with
  | foreign id name =>
    rw [ofValue_foreign hk]
    exact hnative.map_derive
  | _ => exact hnative

end KeyText

/-! ## The value itself -/

theorem Lookup.isLeaf_of_isScalar {l : Lookup} {v : Value}
    (hd : l.options.passthroughDatetime = false) (hv : v.isScalar = true) : l.isLeaf v = true := by
  cases v with
  | array _ | object _ | fragment _ | shared _ | foreign _ _ => cases hv
  | dateTime _ | date _ | time _ => rw [isLeaf, hd, Bool.not_false]
  | _ => rfl

namespace Encoder

variable {σ : Type} {e : Encoder σ} {p : Path} {v key : Value}

theorem form_of_isScalar (hd : e.options.passthroughDatetime = false) (hv : v.isScalar = true) :
    e.form v = .leaf := by
  cases v with
  | array _ | object _ | fragment _ | shared _ | foreign _ _ => cases hv
  | dateTime _ | date _ | time _ => simp only [form, hd, Bool.false_eq_true, if_false]
  | _ => rfl

theorem text_of_isScalar (hd : e.options.passthroughDatetime = false) (hv : v.isScalar = true)
    (budget : Nat) (p : Path) :
    e.text (budget + 1) p v = TextM.lift (v.leafText e.options) := by
  have hhandle : v.handle? = none := by
    cases v with
    | shared _ | foreign _ _ => cases hv
    | _ => rfl
  simp only [text_succ, openedText, hhandle, formText, form_of_isScalar hd hv]

/-- The value that a key has its text from is what the key is written as. -/
theorem text_key (hd : e.options.passthroughDatetime = false)
    (hv : (e.graph.keyValue key).isScalar = true) :
    e.text budget {} key = TextM.lift ((e.graph.keyValue key).leafText e.options) := by
  have hbudget : budget = (budget - 2) + 1 + 1 := rfl
  rw [hbudget]
  cases key with
  | foreign id name =>
    rw [Graph.keyValue] at hv ⊢
    cases hw : e.graph.enumValue id with
    | none =>
      rw [hw] at hv
      cases hv
    | some w =>
      rw [hw] at hv
      have hform : e.form (.foreign id name) = .level w := by rw [form, hw]
      rw [text_succ, openedText, Value.handle?]
      have hlevel : ((Path.opening {} (.foreign id)).depth < Limits.maxDepth) := Nat.zero_lt_succ _
      simp only [openingText, List.not_mem_nil, if_false, formText, hform, deeperText, if_pos hlevel]
      cases w with
      | foreign _ _ => cases hv
      | _ => exact text_of_isScalar hd hv _ _
  | _ => exact text_of_isScalar hd hv _ _

end Encoder

namespace Codec

variable {σ : Type} {mask : UInt32} {o : Options} {g : Graph} {hook : Option (Hook σ)} {h : σ}
  {key : Value}

/-- A key as a value. -/
theorem encodeWith_key (hm : Options.ofMask? mask = .ok o) (hd : o.passthroughDatetime = false)
    (hn : o.appendNewline = false) (hv : (g.keyValue key).isScalar = true) :
    (encodeWith mask g hook h key).1 = ((g.keyValue key).leafText o).mapError .encode := by
  have htext : (Encoder.mk o g hook).text Encoder.budget {} key =
      TextM.lift ((g.keyValue key).leafText o) := Encoder.text_key hd hv
  rw [encodeWith_eq hm, htext]
  cases (g.keyValue key).leafText o with
  | error x => rfl
  | ok b =>
    have hdocument : Encoder.document o b = b := by rw [Encoder.document, hn]; rfl
    exact congrArg Except.ok hdocument

end Codec

/-- What is written between quotes is a document. -/
theorem Document.decodeAnySize_of_text {b : Bytes} {text : String} (h : Text b text) :
    decodeAnySize b = .ok (.str text) := by
  refine decodeAnySize_eq_ok_iff.2 ⟨?_, .of_denotes (.text h)⟩
  cases h
  exact List.cons_ne_nil _ _

namespace KeyText

/-- **Under `nonStrKeys` a key is refused just if its value is, for the same reason, and else is
written as the value is, between quotes; a reader gets the text back that orders it. There is no text
for a key of another kind, and for none but text without that flag.** -/
theorem ofValue_as_value {σ : Type} {mask : UInt32} {o : Options}
    (hm : Options.ofMask? mask = .ok o) (g : Graph) (hook : Option (Hook σ)) (h : σ) (key : Value) :
    (o.nonStrKeys = true → (g.keyValue key).isScalar = true →
      o.strictInteger = false → o.passthroughDatetime = false → o.appendNewline = false →
      (∀ x, ofValue g o key = .error x ↔
        (Codec.encodeWith mask g hook h key).1 = .error (.encode x)) ∧
      ∀ k, ofValue g o key = .ok k → ∃ b, (Codec.encodeWith mask g hook h key).1 = .ok b ∧
        ∃ written : Bytes, (∀ out, k.append out o = out ++ written) ∧
          ((∃ text, Text b text) → written = b) ∧
          ((¬∃ text, Text b text) → written = quote :: (b ++ [quote])) ∧
          ∃ text, Document.decodeAnySize written = .ok (.str text) ∧
            k.bytes = Utf8.encode text) ∧
    (o.nonStrKeys = true → (g.keyValue key).isScalar = false →
      ofValue g o key = .error (.invalidKey (g.keyValue key).typeName)) ∧
    (o.nonStrKeys = false → (∀ text, key ≠ .str text) →
      ofValue g o key = .error .nonStringKey) := by
  refine ⟨fun hk hv hi hd hn => ?_, ofValue_of_not_isScalar, fun hk hne => ?_⟩
  · have hagree := agrees_ofValue hk hi hv
    rw [Codec.encodeWith_key hm hd hn hv]
    refine ⟨fun x => ?_, fun k hkey => ?_⟩
    · rw [hagree.error_iff]
      cases (g.keyValue key).leafText o <;> simp [Except.mapError]
    · have hsound := isSound_ofValue hkey
      rw [hkey] at hagree
      obtain ⟨b, hb, hwraps⟩ := hagree.exists_of_ok
      refine ⟨b, by rw [hb]; rfl, k.quoted o, Encoder.toList_append_key ⟨o, g, hook⟩ k,
        hwraps.quoted_of_text, hwraps.quoted_of_not_text, k.name, ?_, (encode_name hsound).symm⟩
      exact Document.decodeAnySize_of_text (text_quoted hsound o)
  · cases key with
    | str text => exact absurd rfl (hne text)
    | foreign id name => rw [ofValue, hk]; rfl
    | _ => simp only [ofValue, ofNative, hk, Bool.false_eq_true, if_false]

/-- A case of an enumeration that stands for a truth value. -/
theorem ofValue_as_value_of_enum :
    let g : Graph := { Graph.empty with enumValue := fun _ => some (.bool true) }
    let k := plain (Utf8.encode "true")
    ∃ b, (Codec.encodeWith 0x4 g none () (.foreign ⟨0⟩ "flag")).1 = .ok b ∧
      ∃ written : Bytes, (∀ out, k.append out { nonStrKeys := true } = out ++ written) ∧
        ((∃ text, Text b text) → written = b) ∧
        ((¬∃ text, Text b text) → written = quote :: (b ++ [quote])) ∧
        ∃ text, Document.decodeAnySize written = .ok (.str text) ∧ k.bytes = Utf8.encode text :=
  ((ofValue_as_value (σ := Unit) (o := { nonStrKeys := true }) rfl _ none () _).1 rfl rfl rfl rfl
    rfl).2 (plain (Utf8.encode "true")) rfl

end KeyText

end JsonCodec
