/-
The texts of one value under two options, for a hook that is a function.

Where both look values up alike, a value is written in the same form under either, and what is
written inside it stands in the same relation as the value does. So a relation between texts has to
be looked at for leaves, arrays and objects alone (`Lookup.Carries`): it then holds of every value
(`Carries.text`).
-/
import JsonCodec.Proofs.Encoder.Cycles
import JsonCodec.Proofs.Masks

namespace JsonCodec

open TextM

variable {o o' : Options}

/-! ## Where the flags are read -/

theorem TimeOfDay.text_congr (t : TimeOfDay) (h : o'.omitMicroseconds = o.omitMicroseconds) :
    t.text o' = t.text o := by rw [text, text, h]

theorem Offset.text_congr (offset : Offset) (h : o'.utcZ = o.utcZ) :
    offset.text o' = offset.text o := by rw [text, text, h]

theorem Time.text_congr (t : Time) (ho : o'.omitMicroseconds = o.omitMicroseconds)
    (hu : o'.utcZ = o.utcZ) : t.text o' = t.text o := by
  have hoffset : (fun offset : Offset => offset.text o') = fun offset => offset.text o :=
    funext fun offset => offset.text_congr hu
  rw [text, text, t.time.text_congr ho, hoffset]

/-- The flags that the texts of leaves and keys depend on, apart from integers and from how text is
escaped. -/
def Flag.ofTexts : List Flag := [.nonStrKeys, .naiveUtc, .allowNonFinite, .omitMicroseconds, .utcZ]

section Texts

variable {flags : List Flag} (h : o.AgreeBut flags o') (hf : ∀ flag ∈ Flag.ofTexts, flag ∉ flags)
include h hf

theorem Options.AgreeBut.time (t : Time) : t.text o' = t.text o :=
  t.text_congr (h _ (hf .omitMicroseconds (by decide))) (h _ (hf .utcZ (by decide)))

theorem Options.AgreeBut.dateTime (t : DateTime) : t.text o' = t.text o := by
  have hnaive : o'.naiveUtc = o.naiveUtc := h _ (hf .naiveUtc (by decide))
  have hoffset (offset : Offset) : offset.text o' = offset.text o :=
    offset.text_congr (h _ (hf .utcZ (by decide)))
  have hclock := t.time.text_congr (h _ (hf .omitMicroseconds (by decide)))
  simp only [DateTime.text, hnaive, hclock, hoffset]

theorem Options.AgreeBut.float (x : Binary64) : Scalar.float o' x = Scalar.float o x := by
  have hnonFinite : o'.allowNonFinite = o.allowNonFinite := h _ (hf .allowNonFinite (by decide))
  simp only [Scalar.float, hnonFinite]

/-- **A key has one text under both.** -/
theorem Options.AgreeBut.ofValue (g : Graph) : KeyText.ofValue g o' = KeyText.ofValue g o := by
  have hkeys : o'.nonStrKeys = o.nonStrKeys := h _ (hf .nonStrKeys (by decide))
  have hleaf : KeyText.ofLeaf o' = KeyText.ofLeaf o := by
    funext key
    cases key with
    | bool b => cases b <;> rfl
    | float x => simp only [KeyText.ofLeaf, h.float hf]
    | dateTime t => simp only [KeyText.ofLeaf, h.dateTime hf]
    | time t => simp only [KeyText.ofLeaf, h.time hf]
    | _ => rfl
  have hnative : KeyText.ofNative o' = KeyText.ofNative o := by
    funext key
    cases key <;> simp only [KeyText.ofNative, hkeys, hleaf]
  funext key
  cases key <;> simp only [KeyText.ofValue, hkeys, hnative]

/-- **A leaf has one text under both, but that text may be escaped in two ways.** -/
theorem Options.AgreeBut.leafText (hi : .strictInteger ∉ flags) {v : Value}
    (hv : ∀ text, v = .str text → o'.asciiOnly = o.asciiOnly) : v.leafText o' = v.leafText o := by
  have hstrict : o'.strictInteger = o.strictInteger := h _ hi
  cases v with
  | bool b => cases b <;> rfl
  | int n => simp only [Value.leafText, Scalar.int, hstrict]
  | bigInt n => simp only [Value.leafText, Scalar.bigInt, hstrict]
  | float x => exact h.float hf x
  | str text => simp only [Value.leafText, hv text rfl]
  | dateTime t => simp only [Value.leafText, h.dateTime hf]
  | time t => simp only [Value.leafText, h.time hf]
  | _ => rfl

end Texts

namespace Options

/-- The layout of containers is a matter of one flag. -/
theorem bracketed_congr (h : o'.indent2 = o.indent2) : o'.bracketed = o.bracketed := by
  have hbreak : o'.breakAt = o.breakAt := funext fun depth => by rw [breakAt, breakAt, h]
  have hlead : o'.leadAt = o.leadAt :=
    funext fun depth => funext fun first => by rw [leadAt, leadAt, hbreak]
  funext depth left right parts
  rw [bracketed, bracketed, hbreak, hlead]

theorem arrange_congr {β : Type} (h : o'.sortKeys = o.sortKeys) (ms : List (KeyText × β)) :
    o'.arrange ms = o.arrange ms := by rw [arrange, arrange, h]

theorem memberBytes_congr (hi : o'.indent2 = o.indent2) (ha : o'.asciiOnly = o.asciiOnly) :
    o'.memberBytes = o.memberBytes := by
  have hquoted (k : KeyText) : k.quoted o' = k.quoted o := by
    cases k <;> simp only [KeyText.quoted, ha]
  funext m
  rw [memberBytes, memberBytes, hquoted, afterKey, afterKey, hi]

end Options

theorem Encoder.document_congr (h : o'.appendNewline = o.appendNewline) :
    document o' = document o := by
  funext b
  rw [document, document, h]

/-- A function is asked at once. -/
theorem TextM.ask_ofFunction_bind {α : Type} {f : Value → Option Value} {v : Value}
    {k : Option Value → TextM Unit α} : (TextM.ask (Hook.ofFunction f) v >>= k) = k (f v) := rfl

/-! ## One form under both -/

/-- Values are looked up alike under the two. -/
structure Options.LookUpAlike (o o' : Options) : Prop where
  datetime : o'.passthroughDatetime = o.passthroughDatetime
  dataclass : o'.passthroughDataclass = o.passthroughDataclass

theorem Options.AgreeBut.lookUpAlike {flags : List Flag}
    (h : o.AgreeBut flags o') (hd : .passthroughDatetime ∉ flags)
    (hc : .passthroughDataclass ∉ flags) : o.LookUpAlike o' := ⟨h _ hd, h _ hc⟩

namespace Lookup

/-- The same under other options. -/
def under (l : Lookup) (o' : Options) : Lookup := { l with options := o' }

variable {l : Lookup} {v w : Value}

section LookUpAlike

variable (h : l.options.LookUpAlike o')
include h

theorem isLeaf_under (v : Value) : (l.under o').isLeaf v = l.isLeaf v := by
  cases v <;> simp only [isLeaf, under, h.datetime]

theorem find?_under (v : Value) : (l.under o').find? v = l.find? v := by
  cases v <;> simp only [find?, offered?, under, h.datetime, h.dataclass]

theorem form_under (v : Value) : (l.under o').encoder.form v = l.encoder.form v := by
  have hd : (l.under o').encoder.options.passthroughDatetime =
      l.encoder.options.passthroughDatetime := h.datetime
  have hc : (l.under o').encoder.options.passthroughDataclass =
      l.encoder.options.passthroughDataclass := h.dataclass
  have hg : (l.under o').encoder.graph = l.encoder.graph := rfl
  cases v <;> simp only [Encoder.form, Encoder.fields?, hd, hc, hg]

theorem leads_under (hl : l.Leads v w) : (l.under o').Leads v w := by
  cases hl with
  | item hw => exact .item hw
  | member hm => exact .member hm
  | found hf => exact .found ((find?_under h v).trans hf)

theorem reaches_under (hr : l.Reaches v w) : (l.under o').Reaches v w :=
  Relation.ReflTransGen.mono (fun _ _ => leads_under h) v w hr

theorem unfolds_under {tree : Value} (hu : l.Unfolds v tree) : (l.under o').Unfolds v tree := by
  induction hu with
  | leaf hl => exact .leaf ((isLeaf_under h _).trans hl)
  | found hf _ ih => exact .found ((find?_under h _).trans hf) ih
  | array hlen _ ih => exact .array hlen ih
  | object hk _ ih => exact .object hk ih

end LookUpAlike

/-- The relation `R`, between the texts of a value under the options of `l` and under `o'`, holds of
all that is written without a value inside, and of the rest if it does of the values inside. -/
structure Carries (l : Lookup) (o' : Options)
    (R : Value → TextM Unit Bytes → TextM Unit Bytes → Prop) : Prop where
  lookUp : l.options.LookUpAlike o'
  stop (v : Value) (x : Stop) : R v (throw x) (throw x)
  leaf {v : Value} (hf : l.encoder.form v = .leaf) :
    R v (lift (v.leafText l.options)) (lift (v.leafText o'))
  array {recur recur' : Path → Value → TextM Unit Bytes} {p : Path} {vs : List Value}
    (hd : p.depth < Limits.maxDepth) (h : ∀ w ∈ vs, R w (recur p.deeper w) (recur' p.deeper w)) :
    R (.array vs) (l.encoder.arrayText recur p vs) ((l.under o').encoder.arrayText recur' p vs)
  object {recur recur' : Path → Value → TextM Unit Bytes} {p : Path} {ms : Members}
    (hd : p.depth < Limits.maxDepth)
    (h : ∀ m ∈ ms, R m.2 (recur p.deeper m.2) (recur' p.deeper m.2)) :
    R (.object ms) (l.encoder.objectText recur p ms) ((l.under o').encoder.objectText recur' p ms)
  found {v w : Value} {t t' : TextM Unit Bytes} (hf : l.find? v = some w) (h : R w t t') : R v t t'

namespace Carries

variable {R : Value → TextM Unit Bytes → TextM Unit Bytes → Prop}
  {recur recur' : Path → Value → TextM Unit Bytes} {p : Path}

section

variable (hR : l.Carries o' R)
include hR

theorem refuse (v : Value) (x : EncodeError) : R v (TextM.refuse x) (TextM.refuse x) :=
  hR.stop v (.refused x)

variable (h : ∀ p v, R v (recur p v) (recur' p v))
include h

theorem arrayText (p : Path) (vs : List Value) : R (.array vs) (l.encoder.arrayText recur p vs)
    ((l.under o').encoder.arrayText recur' p vs) := by
  by_cases hd : p.depth < Limits.maxDepth
  · exact hR.array hd fun w _ => h _ w
  · rw [Encoder.arrayText, Encoder.arrayText, Encoder.containerText_of_ge (Nat.le_of_not_lt hd),
      Encoder.containerText_of_ge (Nat.le_of_not_lt hd)]
    exact hR.refuse _ _

theorem objectText (p : Path) (ms : Members) : R (.object ms) (l.encoder.objectText recur p ms)
    ((l.under o').encoder.objectText recur' p ms) := by
  by_cases hd : p.depth < Limits.maxDepth
  · exact hR.object hd fun m _ => h _ m.2
  · rw [Encoder.objectText, Encoder.objectText, Encoder.containerText_of_ge (Nat.le_of_not_lt hd),
      Encoder.containerText_of_ge (Nat.le_of_not_lt hd)]
    exact hR.refuse _ _

theorem deeperText (hf : l.find? v = some w) (p : Path) :
    R v (Encoder.deeperText recur p w) (Encoder.deeperText recur' p w) := by
  rw [Encoder.deeperText, Encoder.deeperText]
  split
  · exact hR.found hf (h _ w)
  · exact hR.refuse _ _

theorem replacedText (hf : l.find? v = l.offered? v) (p : Path) :
    R v (l.encoder.replacedText recur p v) ((l.under o').encoder.replacedText recur' p v) := by
  obtain ⟨o, g, hook⟩ := l
  cases hook with
  | none => exact hR.refuse _ _
  | some f =>
    rw [Encoder.replacedText, Encoder.replacedText]
    simp only [encoder, under, Option.map_some, TextM.ask_ofFunction_bind]
    split
    · exact hR.refuse _ _
    · cases hw : f v with
      | none => exact hR.refuse _ _
      | some w => exact hR.found (hf.trans hw) (h _ w)

theorem formText (p : Path) (v : Value) :
    R v (l.encoder.formText recur p v) ((l.under o').encoder.formText recur' p v) := by
  have hinside := l.inside_form v
  rw [Encoder.formText, Encoder.formText, form_under hR.lookUp]
  cases hf : l.encoder.form v with
  | leaf => exact hR.leaf hf
  | items vs =>
    rw [hf] at hinside
    obtain rfl : v = .array vs := hinside
    exact hR.arrayText h p vs
  | members ms =>
    rw [hf] at hinside
    rcases hinside with rfl | hfind
    · exact hR.objectText h p ms
    · exact hR.found hfind (hR.objectText h p ms)
  | level w =>
    rw [hf] at hinside
    exact hR.deeperText h hinside p
  | asked =>
    rw [hf] at hinside
    exact hR.replacedText h hinside p

end

/-- **What carries over from the values inside to the value holds of every value.** -/
theorem text (hR : l.Carries o' R) (budget : Nat) (p : Path) (v : Value) :
    R v (l.encoder.text budget p v) ((l.under o').encoder.text budget p v) := by
  induction budget generalizing p v with
  | zero => exact hR.stop v .outOfBudget
  | succ budget ih =>
    rw [Encoder.text_succ, Encoder.text_succ, Encoder.openedText, Encoder.openedText]
    cases v.handle? with
    | none => exact hR.formText ih p v
    | some i =>
      simp only [Encoder.openingText]
      split
      · exact hR.refuse _ _
      · exact hR.formText ih _ v

end Carries

end Lookup

end JsonCodec
