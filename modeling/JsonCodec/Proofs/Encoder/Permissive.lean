/-
Options that only let through and options that only refuse (`encodeWith_permissive`).

Flags that let more values and keys through show nowhere in what is written without them
(`Options.Permits`). Under a strict treatment of integers a value that was written is written alike, or
refused because of an integer in it: nothing else is wrong with it, so that no other error can come
first.
-/
import JsonCodec.Proofs.Encoder.OtherOptions

namespace JsonCodec

open Encoder TextM

/-- Flags that let values or keys through that are refused without them. -/
def Flag.permissive : List Flag := [.naiveUtc, .nonStrKeys, .allowNonFinite]

/-- An integer that strict options refuse. -/
def Value.isUnsafeInteger : Value → Bool
  | .int n => !Scalar.isSafe n.toInt
  | .bigInt _ => true
  | _ => false

namespace Options

/-- `o'` lets through what `o` does, but for integers, and is otherwise the same. -/
structure Permits (o o' : Options) : Prop where
  same : o.AgreeBut (.strictInteger :: Flag.permissive) o'
  more : ∀ flag ∈ Flag.permissive, o.has flag = true → o'.has flag = true

variable {o o' : Options}

/-- What two results have in common they have in common when they are mapped. -/
theorem map_eq_ok {α β : Type} {x y : Except EncodeError α} {f : α → β} {c : β}
    (hxy : ∀ a, x = .ok a → y = .ok a) (h : x.map f = .ok c) : y.map f = .ok c := by
  cases hx : x with
  | ok a => rwa [hxy a hx, ← hx]
  | error e =>
    rw [hx] at h
    cases h

namespace Permits

variable (h : o.Permits o') {b : Bytes}
include h

theorem float {x : Binary64} (hb : Scalar.float o x = .ok b) : Scalar.float o' x = .ok b := by
  have hmore : o.allowNonFinite = true → o'.allowNonFinite = true := h.more .allowNonFinite (by decide)
  rw [Scalar.float] at hb ⊢
  split at hb
  · next hx => rwa [if_pos hx]
  · next hx =>
    split at hb
    · next hn => rwa [if_neg hx, if_pos (hmore hn)]
    · cases hb

theorem time (t : Time) : t.text o' = t.text o :=
  t.text_congr (h.same .omitMicroseconds (by decide)) (h.same .utcZ (by decide))

theorem dateTime {t : DateTime} (hb : t.text o = .ok b) : t.text o' = .ok b := by
  have hmore : o.naiveUtc = true → o'.naiveUtc = true := h.more .naiveUtc (by decide)
  have hoffset {offset : Offset} (ho : t.offset.or (if o.naiveUtc then some .utc else none) =
      some offset) : t.offset.or (if o'.naiveUtc then some .utc else none) = some offset := by
    cases ht : t.offset with
    | some _ => simpa [ht] using ho
    | none =>
      simp only [ht, Option.none_or] at ho ⊢
      split at ho
      · next hn => rwa [if_pos (hmore hn)]
      · cases ho
  rw [DateTime.text] at hb ⊢
  split at hb
  · next offset ho =>
    have hzone := offset.text_congr (h.same .utcZ (by decide))
    simp only [hoffset ho, t.time.text_congr (h.same .omitMicroseconds (by decide)), hzone]
    exact hb
  · cases hb

/-! **A key that has a text keeps it.** -/

theorem ofLeaf {key : Value} {k : KeyText} (hk : KeyText.ofLeaf o key = .ok k) :
    KeyText.ofLeaf o' key = .ok k := by
  cases key with
  | bool b => cases b <;> exact hk
  | float x => exact map_eq_ok (fun _ => h.float) hk
  | dateTime t => exact map_eq_ok (fun _ => h.dateTime) hk
  | time t =>
    rw [KeyText.ofLeaf] at hk ⊢
    rwa [h.time]
  | _ => exact hk

theorem ofNative {key : Value} {k : KeyText} (hk : KeyText.ofNative o key = .ok k) :
    KeyText.ofNative o' key = .ok k := by
  have hmore : o.nonStrKeys = true → o'.nonStrKeys = true := h.more .nonStrKeys (by decide)
  rw [KeyText.ofNative.eq_def] at hk ⊢
  split at hk
  · exact hk
  · split at hk
    · next hn =>
      simp only [hmore hn, ite_true]
      exact h.ofLeaf hk
    · cases hk

theorem ofValue {g : Graph} {key : Value} {k : KeyText} (hk : KeyText.ofValue g o key = .ok k) :
    KeyText.ofValue g o' key = .ok k := by
  have hmore : o.nonStrKeys = true → o'.nonStrKeys = true := h.more .nonStrKeys (by decide)
  rw [KeyText.ofValue.eq_def] at hk ⊢
  split at hk
  · split at hk
    · next hn =>
      simp only [hmore hn, ite_true]
      split at hk
      · cases hk
      · cases hk
      · exact map_eq_ok (fun _ => h.ofNative) hk
    · cases hk
  · exact h.ofNative hk

/-- **A leaf that is written is written alike, unless it is an integer that is now refused.** -/
theorem leafText {v : Value} (hv : o'.strictInteger = true → v.isUnsafeInteger = false)
    (hb : v.leafText o = .ok b) : v.leafText o' = .ok b := by
  cases v with
  | bool x => cases x <;> exact hb
  | int n =>
    rw [Value.leafText, Scalar.int] at hb ⊢
    split at hb
    · cases hb
    · rw [if_neg fun hs => ?_]
      · exact hb
      · obtain ⟨hstrict, hn⟩ := Bool.and_eq_true_iff.1 hs
        exact absurd hn (Bool.eq_false_iff.1 (hv hstrict))
  | bigInt n =>
    rw [Value.leafText, Scalar.bigInt] at hb ⊢
    split at hb
    · cases hb
    · rw [if_neg fun hs => Bool.noConfusion (hv hs)]
      exact hb
  | float x => exact h.float hb
  | str text =>
    have hascii : o'.asciiOnly = o.asciiOnly := h.same .asciiOnly (by decide)
    rw [Value.leafText] at hb ⊢
    rwa [hascii]
  | dateTime t => exact map_eq_ok (fun _ => h.dateTime) hb
  | time t =>
    rw [Value.leafText] at hb ⊢
    rwa [h.time]
  | _ => exact hb

end Permits

theorem leafText_of_unsafe {v : Value} (hs : o.strictInteger = true)
    (hv : v.isUnsafeInteger = true) : v.leafText o = .error .integerOutOfRange := by
  cases v with
  | int n =>
    rw [Value.isUnsafeInteger] at hv
    rw [Value.leafText, Scalar.int, hs, hv]
    rfl
  | bigInt n =>
    rw [Value.leafText, Scalar.bigInt, hs]
    rfl
  | _ => cases hv

end Options

namespace Lookup

variable {l : Lookup} {o' : Options} {v w : Value}

/-- Under strict options no integer is refused on the way down from `v`. -/
def Passes (l : Lookup) (o' : Options) (v : Value) : Prop :=
  o'.strictInteger = true → ∀ w, l.Reaches v w → w.isUnsafeInteger = false

theorem Passes.of_leads (h : l.Passes o' v) (hw : l.Leads v w) : l.Passes o' w :=
  fun hs u hu => h hs u (.head hw hu)

theorem passes_of_leads (hv : o'.strictInteger = true → v.isUnsafeInteger = false)
    (h : ∀ w, l.Leads v w → l.Passes o' w) : l.Passes o' v := by
  intro hs u hu
  rcases Relation.ReflTransGen.cases_head hu with rfl | ⟨w, hw, hu⟩
  · exact hv hs
  · exact h w hw hs u hu

/-- What is not a leaf is no integer. -/
theorem passes_found (hf : l.find? v = some w) : l.Passes o' v ↔ l.Passes o' w := by
  refine ⟨fun h => h.of_leads (.found hf), fun h => passes_of_leads (fun _ => ?_) fun u hu => ?_⟩
  · cases v <;> first | rfl | cases hf
  · cases hu with
    | item | member => cases hf
    | found hu =>
      rw [hf] at hu
      cases hu
      exact h

theorem passes_array {vs : List Value} : l.Passes o' (.array vs) ↔ ∀ w ∈ vs, l.Passes o' w := by
  refine ⟨fun h w hw => h.of_leads (.item hw), fun h => passes_of_leads (fun _ => rfl) fun w hw => ?_⟩
  exact h w hw.mem_of_array

theorem passes_object {ms : Members} :
    l.Passes o' (.object ms) ↔ ∀ m ∈ ms, l.Passes o' m.2 := by
  refine ⟨fun h m hm => h.of_leads (.member hm), fun h => passes_of_leads (fun _ => rfl) fun w hw => ?_⟩
  obtain ⟨m, hm, rfl⟩ := hw.exists_of_object
  exact h m hm

theorem isLeaf_of_form (hf : l.encoder.form v = .leaf) : l.isLeaf v = true := by
  cases v with
  | foreign id name =>
    rw [Encoder.form] at hf
    split at hf
    · cases hf
    · split at hf <;> cases hf
  | dateTime t | date t | time t =>
    rw [Encoder.form, options_encoder] at hf
    split at hf
    · cases hf
    · next hp => exact Bool.not_eq_true' _ ▸ Bool.eq_false_iff.2 hp
  | array _ | object _ | shared _ => cases hf
  | _ => rfl

/-- What `t` gives `t'` gives, or else refuses for an integer on the way down from `v`. -/
def Kept (l : Lookup) (o' : Options) (v : Value) (t t' : TextM Unit Bytes) : Prop :=
  ∀ b, Gives t b →
    (l.Passes o' v → Gives t' b) ∧ (¬l.Passes o' v → Refuses t' .integerOutOfRange)

/-- A part is given or refused, whichever of the two. -/
theorem Kept.gives_or_refuses {t t' : TextM Unit Bytes} {b : Bytes} (h : l.Kept o' v t t')
    (hb : Gives t b) : (∃ b, Gives t' b) ∨ Refuses t' .integerOutOfRange := by
  by_cases hp : l.Passes o' v
  · exact .inl ⟨b, (h b hb).1 hp⟩
  · exact .inr ((h b hb).2 hp)

section

variable {recur recur' : Path → Value → TextM Unit Bytes} {p : Path}

theorem kept_leaf (h : l.options.Permits o') (hf : l.encoder.form v = .leaf) :
    l.Kept o' v (lift (v.leafText l.options)) (lift (v.leafText o')) := by
  intro b hb
  rw [Gives.lift_iff] at hb
  refine ⟨fun hp => Gives.lift_iff.2 (h.leafText (fun hs => hp hs v .refl) hb), fun hp => ?_⟩
  have hunsafe : o'.strictInteger = true ∧ v.isUnsafeInteger = true := by
    by_contra hsafe
    refine hp (passes_of_leads (fun hs => ?_) fun w hw => ?_)
    · exact Bool.eq_false_iff.2 fun hv => hsafe ⟨hs, hv⟩
    · exact absurd hw (not_leads_of_isLeaf (isLeaf_of_form hf))
  rw [Options.leafText_of_unsafe hunsafe.1 hunsafe.2]
  exact refuses_refuse _

theorem kept_array {vs : List Value} (h : l.options.Permits o')
    (hvs : ∀ w ∈ vs, l.Kept o' w (recur p.deeper w) (recur' p.deeper w)) :
    l.Kept o' (.array vs) (l.encoder.arrayText recur p vs)
      ((l.under o').encoder.arrayText recur' p vs) := by
  intro b hb
  obtain ⟨hd, B, hB, rfl⟩ := exists_of_gives_arrayText hb
  rw [passes_array, options_encoder, ← Options.bracketed_congr (h.same .indent2 (by decide))]
  constructor
  · intro hp
    have harray : Gives ((l.under o').encoder.arrayText recur' p (vs.map id)) _ :=
      gives_arrayText hd fun w hw => (hvs w hw _ (hB w hw)).1 (hp w hw)
    rwa [List.map_id] at harray
  · intro hp
    simp only [not_forall] at hp
    obtain ⟨w, hw, hn⟩ := hp
    have harray : Refuses ((l.under o').encoder.arrayText recur' p (vs.map id)) .integerOutOfRange :=
      refuses_arrayText hd (fun y hy => (hvs y hy).gives_or_refuses (hB y hy))
        ⟨w, hw, (hvs w hw _ (hB w hw)).2 hn⟩
    rwa [List.map_id] at harray

theorem kept_object {ms : Members} (h : l.options.Permits o')
    (hms : ∀ m ∈ ms, l.Kept o' m.2 (recur p.deeper m.2) (recur' p.deeper m.2)) :
    l.Kept o' (.object ms) (l.encoder.objectText recur p ms)
      ((l.under o').encoder.objectText recur' p ms) := by
  intro b hb
  obtain ⟨hd, K, B, hK, hB, rfl⟩ := exists_of_gives_objectText hb
  have hK' : ∀ m ∈ ms, KeyText.ofValue l.graph o' m.1 = .ok (K m) := fun m hm => h.ofValue (hK m hm)
  have hindent : o'.indent2 = l.options.indent2 := h.same .indent2 (by decide)
  rw [passes_object, options_encoder, ← Options.bracketed_congr hindent,
    ← Options.memberBytes_congr hindent (h.same .asciiOnly (by decide)),
    ← Options.arrange_congr (h.same .sortKeys (by decide))]
  constructor
  · intro hp
    have hobject : Gives ((l.under o').encoder.objectText recur' p (ms.map fun m => (m.1, m.2))) _ :=
      gives_objectText hd hK' fun m hm => (hms m hm _ (hB m hm)).1 (hp m hm)
    rwa [List.map_id'] at hobject
  · intro hp
    simp only [not_forall] at hp
    obtain ⟨m, hm, hn⟩ := hp
    have hobject : Refuses ((l.under o').encoder.objectText recur' p (ms.map fun m => (m.1, m.2)))
        .integerOutOfRange :=
      refuses_objectText hd hK' (fun m hm => (hms m hm).gives_or_refuses (hB m hm))
        ⟨m, hm, (hms m hm _ (hB m hm)).2 hn⟩
    rwa [List.map_id'] at hobject

end

theorem carries_kept (h : l.options.Permits o') : l.Carries o' (l.Kept o') where
  lookUp := h.same.lookUpAlike (by decide) (by decide)
  stop _ _ _ hb := nomatch hb ()
  leaf := kept_leaf h
  array _ := kept_array h
  object _ := kept_object h
  found hf hw := by
    intro b hb
    rw [passes_found hf]
    exact hw b hb

end Lookup

namespace Codec

variable {mask : UInt32} {o o' : Options} {g : Graph} {hook : Option (Value → Option Value)}
  {v : Value} {b : Bytes}

/-- What is written is written alike under options that let it through, or refused for an integer. -/
theorem encodeWith_of_permits {mask' : UInt32} (hm : Options.ofMask? mask = .ok o)
    (hm' : Options.ofMask? mask' = .ok o') (h : o.Permits o')
    (hb : (encodeWith mask g (hook.map Hook.ofFunction) () v).1 = .ok b) :
    ((Lookup.mk o g hook).Passes o' v →
      (encodeWith mask' g (hook.map Hook.ofFunction) () v).1 = .ok b) ∧
    (¬(Lookup.mk o g hook).Passes o' v →
      (encodeWith mask' g (hook.map Hook.ofFunction) () v).1 =
        .error (.encode .integerOutOfRange)) := by
  obtain ⟨c, hc, rfl⟩ := (encodeWith_eq_ok_iff hm).1 hb
  have hkept := (Lookup.carries_kept (l := ⟨o, g, hook⟩) h).text Encoder.budget {} v c hc
  have hdocument : document o' = document o :=
    document_congr (h.same .appendNewline (by decide))
  constructor
  · intro hp
    exact (encodeWith_eq_ok_iff hm').2 ⟨c, hkept.1 hp, by rw [hdocument]⟩
  · intro hp
    have hrefused : (Encoder.mk o' g (hook.map Hook.ofFunction)).text Encoder.budget {} v () = _ :=
      hkept.2 hp ()
    rw [encodeWith_eq hm', hrefused]
    rfl

theorem exists_ofMask?_of_encodeWith {σ : Type} {hook : Option (Hook σ)} {h : σ}
    (hb : (encodeWith mask g hook h v).1 = .ok b) : ∃ o, Options.ofMask? mask = .ok o := by
  cases hm : Options.ofMask? mask with
  | ok o => exact ⟨o, rfl⟩
  | error y =>
    simp only [encodeWith, hm] at hb
    cases hb

/-- What is written under strict options has no integer in it that these refuse. -/
theorem passes_of_encodeWith (hm : Options.ofMask? mask = .ok o)
    (hb : (encodeWith mask g (hook.map Hook.ofFunction) () v).1 = .ok b) :
    (Lookup.mk o g hook).Passes o v := by
  by_contra hp
  have hsame : o.Permits o := ⟨fun _ _ => rfl, fun _ _ => id⟩
  have hrefused := (encodeWith_of_permits hm hm hsame hb).2 hp
  rw [hb] at hrefused
  cases hrefused

/-- More of the permissive flags, and integers treated strictly no more than before. -/
theorem encodeWith_of_masks {added removed : List Flag} (ha : added ⊆ Flag.permissive)
    (hr : removed ⊆ [.strictInteger])
    (hb : (encodeWith mask g (hook.map Hook.ofFunction) () v).1 = .ok b) :
    (encodeWith ((mask ||| Flag.bits added) &&& ~~~Flag.bits removed) g
      (hook.map Hook.ofFunction) () v).1 = .ok b := by
  obtain ⟨o, hm⟩ := exists_ofMask?_of_encodeWith hb
  obtain ⟨o₁, hm₁, hhas₁⟩ := Options.ofMask?_or hm added
  obtain ⟨o', hm', hhas'⟩ := Options.ofMask?_and_not hm₁ removed
  have hstrict : o'.has .strictInteger = true → o.has .strictInteger = true := by
    have hnot : Flag.strictInteger ∉ added := fun h => absurd (ha h) (by decide)
    rw [hhas', hhas₁, decide_eq_false hnot, Bool.or_false]
    exact fun h => (Bool.and_eq_true_iff.1 h).1
  have hpermits : o.Permits o' := by
    refine ⟨fun flag hflag => ?_, fun flag hflag h => ?_⟩
    · have hadded : flag ∉ added := fun h => hflag (List.mem_cons_of_mem _ (ha h))
      have hremoved : flag ∉ removed := fun h => hflag (List.mem_singleton.1 (hr h) ▸ List.mem_cons_self)
      rw [hhas', hhas₁, decide_eq_false hadded, decide_eq_false hremoved, Bool.or_false,
        Bool.not_false, Bool.and_true]
    · have hremoved : flag ∉ removed := by
        intro h
        rw [List.mem_singleton.1 (hr h)] at hflag
        exact absurd hflag (by decide)
      rw [hhas', hhas₁, h, decide_eq_false hremoved]
      rfl
  refine (encodeWith_of_permits hm hm' hpermits hb).1 fun hs => ?_
  exact passes_of_encodeWith hm hb (hstrict hs)

/-- **What is written is written alike when permissive flags are added and when integers are no more
treated strictly. Where they are treated strictly, it is written alike or refused for an integer; and
it is refused just if there is an unsafe one among the values met on the way down. (Keys are none of
these.)** -/
theorem encodeWith_permissive
    (hb : (encodeWith mask g (hook.map Hook.ofFunction) () v).1 = .ok b) :
    (∀ added removed : List Flag, added ⊆ Flag.permissive → removed ⊆ [.strictInteger] →
      (encodeWith ((mask ||| Flag.bits added) &&& ~~~Flag.bits removed) g
        (hook.map Hook.ofFunction) () v).1 = .ok b) ∧
    let strict := (encodeWith (mask ||| Flag.strictInteger.bit) g (hook.map Hook.ofFunction) () v).1
    (strict = .ok b ∨ strict = .error (.encode .integerOutOfRange)) ∧
    (strict = .error (.encode .integerOutOfRange) ↔
      ∃ w, (Lookup.mk (.ofBits mask) g hook).Reaches v w ∧ w.isUnsafeInteger = true) := by
  refine ⟨fun added removed ha hr => encodeWith_of_masks ha hr hb, ?_⟩
  obtain ⟨o, hm⟩ := exists_ofMask?_of_encodeWith hb
  obtain ⟨o', hm', hs, hagree⟩ := Options.exists_agreeBut hm .strictInteger
  obtain rfl := Options.eq_ofBits hm
  have hpermits : (Options.ofBits mask).Permits o' := by
    refine ⟨fun flag hflag => hagree flag fun h => ?_, fun flag hflag h => ?_⟩
    · exact hflag (List.mem_singleton.1 h ▸ List.mem_cons_self)
    · have hother : flag ≠ .strictInteger := by
        rintro rfl
        exact absurd hflag (by decide)
      rwa [hagree flag fun hf => hother (List.mem_singleton.1 hf)]
  have hsplit := encodeWith_of_permits hm hm' hpermits hb
  have hpasses : (Lookup.mk (.ofBits mask) g hook).Passes o' v ↔
      ¬∃ w, (Lookup.mk (.ofBits mask) g hook).Reaches v w ∧ w.isUnsafeInteger = true := by
    simp only [not_exists, not_and, Bool.not_eq_true]
    exact ⟨fun h => h hs, fun h _ => h⟩
  intro strict
  by_cases hp : (Lookup.mk (.ofBits mask) g hook).Passes o' v
  · have hok : strict = .ok b := hsplit.1 hp
    rw [hok]
    exact ⟨.inl rfl, iff_of_false (fun h => by cases h) (hpasses.1 hp)⟩
  · have hrefused : strict = .error (.encode .integerOutOfRange) := hsplit.2 hp
    rw [hrefused]
    exact ⟨.inr rfl, iff_of_true rfl (not_not.1 fun h => hp (hpasses.2 h))⟩

/-- An unsafe integer that is refused as a value, behind one that is not refused as a key. -/
theorem encodeWith_permissive_of_key :
    let v : Value := .object [(.int 9007199254740993, .int 9007199254740992)]
    ∃ b, (encodeWith 0x4 .empty none () v).1 = .ok b ∧
      (encodeWith ((0x4 ||| Flag.bits [.naiveUtc]) &&& ~~~Flag.bits []) .empty none () v).1 = .ok b ∧
      (encodeWith (0x4 ||| Flag.strictInteger.bit) .empty none () v).1 =
        .error (.encode .integerOutOfRange) := by
  intro v
  obtain ⟨b, hb⟩ : ∃ b, (encodeWith 0x4 .empty none () v).1 = .ok b := by
    rw [encodeWith_eq (o := { nonStrKeys := true }) rfl]
    exact ⟨_, rfl⟩
  have hreach : (Lookup.mk (.ofBits 0x4) .empty none).Reaches v (.int 9007199254740992) :=
    .single (.member List.mem_cons_self)
  obtain ⟨hmore, -, hstrict⟩ := @encodeWith_permissive 0x4 .empty none v b hb
  exact ⟨b, hb, hmore _ _ (by decide) (by decide), hstrict.2 ⟨_, hreach, rfl⟩⟩

end Codec

end JsonCodec
