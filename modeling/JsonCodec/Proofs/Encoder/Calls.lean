/-
The values that are written in the course of writing a value (`Encoder.Writes`).

Writing a value writes others inside it, each at a path of its own and with the hook in the state that
those before it left (`Encoder.Enters`). An error that is not the value's own is that of a value
inside it (`entered_of_error`). Each step inside takes a level or an answer of the hook, of which
there are so many, so that the descent ends (`value_ne_outOfBudget`).
-/
import JsonCodec.Proofs.Encoder.Forms
import JsonCodec.Proofs.Encoder.Session
import JsonCodec.Proofs.Encoder.Turns

namespace JsonCodec

open TextM

variable {σ α β : Type}

namespace Path

@[simp] theorem depth_into (p : Path) (v : Value) : (p.into v).depth = p.depth := by
  cases v <;> rfl

@[simp] theorem hookDepth_into (p : Path) (v : Value) : (p.into v).hookDepth = p.hookDepth := by
  cases v <;> rfl

end Path

/-- A value that is to be written, and the state of the hook by then. -/
structure Call (σ : Type) where
  path : Path
  value : Value
  hookState : σ

namespace Call

/-- The path inside the value. -/
def inside (c : Call σ) : Path := c.path.into c.value

/-- Whether the value is inside itself. -/
def IsCircular (c : Call σ) : Prop := ∃ i ∈ c.path.opened, c.value.handle? = some i

end Call

namespace Encoder

/-- `d` is what is to be written next inside `c`, given how the values inside are written. -/
inductive Enters (e : Encoder σ) (recur : Path → Value → TextM σ Bytes) (c : Call σ) : Call σ → Prop
  | item {done rest : List Value} {w : Value} {bs : List Bytes} {h' : σ} (ho : ¬c.IsCircular)
    (hf : e.form c.value = .items (done ++ w :: rest)) (hd : c.inside.depth < Limits.maxDepth)
    (hrun : Runs (done.map (recur c.inside.deeper)) c.hookState bs h') :
    Enters e recur c ⟨c.inside.deeper, w, h'⟩
  | member {ms : Members} {done rest : List (Except EncodeError KeyText × Value)} {k : KeyText}
    {w : Value} {bs : List Bytes} {h' : σ} (ho : ¬c.IsCircular) (hf : e.form c.value = .members ms)
    (hd : c.inside.depth < Limits.maxDepth) (hts : e.turns ms = .ok (done ++ (.ok k, w) :: rest))
    (hrun : Runs (done.map (e.turnText (recur c.inside.deeper))) c.hookState bs h') :
    Enters e recur c ⟨c.inside.deeper, w, h'⟩
  | level {w : Value} (ho : ¬c.IsCircular) (hf : e.form c.value = .level w)
    (hd : c.inside.depth < Limits.maxDepth) : Enters e recur c ⟨c.inside.deeper, w, c.hookState⟩
  | answer {hook : Hook σ} {w : Value} {h' : σ} (ho : ¬c.IsCircular) (hf : e.form c.value = .asked)
    (hh : e.hook = some hook) (hd : c.inside.hookDepth < Limits.maxHookDepth)
    (hw : (hook c.value).run c.hookState = (some w, h')) : Enters e recur c ⟨c.inside.hooked, w, h'⟩

/-- `d` is written in the course of writing `c`, with at most so many values inside one another. -/
inductive Writes (e : Encoder σ) : (budget : Nat) → (c d : Call σ) → Prop
  | self {budget : Nat} {c : Call σ} : Writes e (budget + 1) c c
  | inside {budget : Nat} {c d f : Call σ} (h : e.Enters (e.text budget) c d)
    (hf : Writes e budget d f) : Writes e (budget + 1) c f

variable {e : Encoder σ} {recur : Path → Value → TextM σ Bytes} {c d : Call σ} {b : Bytes}
  {x : Stop} {h h' : σ}

theorem openedText_eq_ok_iff {inside : Path → TextM σ Bytes} :
    openedText c.path c.value inside h = .ok b h' ↔ ¬c.IsCircular ∧ inside c.inside h = .ok b h' := by
  rw [openedText, Call.inside, Path.into, Call.IsCircular]
  cases c.value.handle? with
  | none => simp
  | some i =>
    simp only [openingText, Option.some.injEq, exists_eq_right']
    split
    · next hi => exact iff_of_false (fun hb => by cases hb) fun hall => hall.1 hi
    · next hi => exact ⟨fun hb => ⟨hi, hb⟩, fun hb => hb.2⟩

theorem exists_of_openedText_eq_error {inside : Path → TextM σ Bytes}
    (he : openedText c.path c.value inside h = .error x h') :
    (x = .refused .circularReference ∧ c.IsCircular) ∨
      ¬c.IsCircular ∧ inside c.inside h = .error x h' := by
  rw [openedText, Call.inside, Path.into, Call.IsCircular] at *
  cases hv : c.value.handle? with
  | none =>
    rw [hv] at he
    simpa using he
  | some i =>
    simp only [hv, openingText] at he
    simp only [Option.some.injEq, exists_eq_right']
    split at he
    · next hi =>
      cases he
      exact .inl ⟨rfl, hi⟩
    · next hi => exact .inr ⟨hi, he⟩

/-! ## One value for another -/

section Another

variable {p : Path} {v w : Value}

theorem deeperText_eq_ok_iff :
    deeperText recur p w h = .ok b h' ↔
      p.depth < Limits.maxDepth ∧ recur p.deeper w h = .ok b h' := by
  rw [deeperText]
  split
  · next hd => exact (and_iff_right hd).symm
  · next hd => exact iff_of_false (fun hb => by cases hb) fun hall => hd hall.1

theorem deeperText_eq_error (he : deeperText recur p w h = .error x h') :
    (p.depth < Limits.maxDepth ∧ recur p.deeper w h = .error x h') ∨
      x = .refused .recursionLimit := by
  rw [deeperText] at he
  split at he
  · next hd => exact .inl ⟨hd, he⟩
  · cases he
    exact .inr rfl

theorem exists_of_replacedText_eq_ok (hb : e.replacedText recur p v h = .ok b h') :
    ∃ hook w h₁, e.hook = some hook ∧ p.hookDepth < Limits.maxHookDepth ∧
      (hook v).run h = (some w, h₁) ∧ recur p.hooked w h₁ = .ok b h' := by
  rw [replacedText] at hb
  cases hh : e.hook with
  | none =>
    rw [hh] at hb
    cases hb
  | some hook =>
    simp only [hh] at hb
    split at hb
    · cases hb
    · next hd =>
      obtain ⟨answer, h₁, ha, hb⟩ := bind_eq_ok_iff.1 hb
      cases answer with
      | none => cases hb
      | some w => exact ⟨hook, w, h₁, rfl, Nat.lt_of_not_le hd, ask_eq_ok_iff.1 ha, hb⟩

/-- Where there is no answer, that is the error, or that there may be no more answers. -/
theorem exists_of_replacedText_eq_error (he : e.replacedText recur p v h = .error x h') :
    (∃ hook w h₁, e.hook = some hook ∧ p.hookDepth < Limits.maxHookDepth ∧
      (hook v).run h = (some w, h₁) ∧ recur p.hooked w h₁ = .error x h') ∨
    x = .refused (.unsupported v.typeName) ∨ x = .refused .hookRecursionLimit := by
  rw [replacedText] at he
  cases hh : e.hook with
  | none =>
    rw [hh] at he
    cases he
    exact .inr (.inl rfl)
  | some hook =>
    simp only [hh] at he
    split at he
    · cases he
      exact .inr (.inr rfl)
    · next hd =>
      rcases bind_eq_error_iff.1 he with he | ⟨answer, h₁, ha, he⟩
      · cases he
      · cases answer with
        | none =>
          cases he
          exact .inr (.inl rfl)
        | some w =>
          exact .inl ⟨hook, w, h₁, rfl, Nat.lt_of_not_le hd, ask_eq_ok_iff.1 ha, he⟩

end Another

end Encoder

/-! ## Errors of leaves and keys -/

/-- Whether it is a leaf, a key or the levels that are at fault, and no handle and no hook. -/
def EncodeError.isOwn : EncodeError → Bool
  | .unsupported _ | .circularReference | .hookRecursionLimit => false
  | _ => true

theorem Scalar.isOwn_of_float {o : Options} {y : Binary64} {x : EncodeError}
    (h : float o y = .error x) : x.isOwn = true := by
  rw [float] at h
  split_ifs at h
  cases h
  rfl

theorem DateTime.eq_naiveDateTime_of_text {t : DateTime} {o : Options} {x : EncodeError}
    (h : t.text o = .error x) : x = .naiveDateTime := by
  rw [text] at h
  split at h <;> cases h
  rfl

theorem DateTime.isOwn_of_text {t : DateTime} {o : Options} {x : EncodeError}
    (h : t.text o = .error x) : x.isOwn = true := by
  rw [eq_naiveDateTime_of_text h]
  rfl

/-- A text that is made from another is refused with that. -/
theorem eq_error_of_map {f : α → β} {y : Except EncodeError α} {x : EncodeError}
    (h : y.map f = .error x) : y = .error x := by
  cases y with
  | error z =>
    cases h
    rfl
  | ok a => cases h

theorem Value.isOwn_of_leafText {o : Options} {v : Value} {x : EncodeError}
    (h : v.leafText o = .error x) : x.isOwn = true := by
  cases v with
  | bool b => cases b <;> cases h
  | int n =>
    rw [leafText, Scalar.int] at h
    split at h <;> cases h
    rfl
  | bigInt n =>
    rw [leafText, Scalar.bigInt] at h
    split at h <;> cases h
    rfl
  | float y => exact Scalar.isOwn_of_float h
  | dateTime t => exact DateTime.isOwn_of_text (eq_error_of_map h)
  | _ => cases h

namespace KeyText

variable {g : Graph} {o : Options} {key : Value} {x : EncodeError}

theorem isOwn_of_ofNative (h : ofNative o key = .error x) : x.isOwn = true := by
  have leaf (h : ofLeaf o key = .error x) : x.isOwn = true := by
    cases key with
    | bool b => cases b <;> cases h
    | float y => exact Scalar.isOwn_of_float (eq_error_of_map h)
    | dateTime t => exact DateTime.isOwn_of_text (eq_error_of_map h)
    | array _ | object _ | fragment _ | shared _ | foreign _ _ | str _ =>
      cases h
      rfl
    | _ => cases h
  rw [ofNative.eq_def] at h
  split at h
  · cases h
  · split at h
    · exact leaf h
    · cases h
      rfl

/-- **That a key has no text is the fault of the key.** -/
theorem isOwn_of_ofValue (h : ofValue g o key = .error x) : x.isOwn = true := by
  rw [ofValue.eq_def] at h
  split at h
  · split at h
    · split at h
      · cases h
        rfl
      · cases h
        rfl
      · exact isOwn_of_ofNative (eq_error_of_map h)
    · cases h
      rfl
  · exact isOwn_of_ofNative h

/-- What is wrong with members is wrong with the key of one. -/
theorem exists_of_ofMembers_eq_error {ms : Members} {y : EncodeError}
    (h : ofMembers g o ms = .error y) : ∃ m ∈ ms, ofValue g o m.1 = .error y := by
  induction ms with
  | nil => cases h
  | cons m ms ih =>
    obtain ⟨key, v⟩ := m
    rw [ofMembers_cons] at h
    cases hk : ofValue g o key with
    | error z =>
      rw [hk] at h
      cases h
      exact ⟨_, List.mem_cons_self, hk⟩
    | ok k =>
      rw [hk] at h
      cases hks : ofMembers g o ms with
      | ok ks =>
        rw [hks] at h
        cases h
      | error z =>
        rw [hks] at h
        cases h
        obtain ⟨m, hm, hy⟩ := ih hks
        exact ⟨m, List.mem_cons_of_mem _ hm, hy⟩

end KeyText

namespace Encoder

variable {e : Encoder σ} {recur : Path → Value → TextM σ Bytes} {c d : Call σ} {b : Bytes}
  {ms : Members} {x : Stop} {y : EncodeError} {h h' : σ}

theorem isOwn_of_sorted (h : KeyText.sorted e.graph e.options ms = .error y) : y.isOwn = true := by
  rw [KeyText.sorted] at h
  cases hks : KeyText.ofMembers e.graph e.options ms with
  | ok ks =>
    rw [hks] at h
    cases h
  | error z =>
    rw [hks] at h
    cases h
    obtain ⟨m, -, hm⟩ := KeyText.exists_of_ofMembers_eq_error hks
    exact KeyText.isOwn_of_ofValue hm

theorem isOwn_of_turns (h : e.turns ms = .error y) : y.isOwn = true := by
  rw [turns] at h
  split at h
  · cases hks : KeyText.sorted e.graph e.options ms with
    | ok ks =>
      rw [hks] at h
      cases h
    | error z =>
      rw [hks] at h
      cases h
      exact isOwn_of_sorted hks
  · cases h

theorem isOwn_of_mem_turns {ts : List (Except EncodeError KeyText × Value)}
    (hts : e.turns ms = .ok ts) {t : Except EncodeError KeyText × Value} (ht : t ∈ ts)
    (h : t.1 = .error y) : y.isOwn = true := by
  obtain ⟨m, -, rfl⟩ := exists_of_mem_turns hts ht
  exact KeyText.isOwn_of_ofValue h

/-- **An error is that of a value inside, or says that the value is inside itself, or is another of
the value's own.** -/
theorem entered_of_error (he : e.textWith recur c.path c.value c.hookState = .error x h') :
    (∃ d, e.Enters recur c d ∧ recur d.path d.value d.hookState = .error x h') ∨
      (x = .refused .circularReference ∧ c.IsCircular) ∨
      ∃ y, y ≠ .circularReference ∧ x = .refused y := by
  have own {y : EncodeError} (hy : y.isOwn = true) : y ≠ .circularReference := by
    rintro rfl
    cases hy
  have hhook : EncodeError.hookRecursionLimit ≠ .circularReference := by simp
  have hno (name : String) : EncodeError.unsupported name ≠ .circularReference := by simp
  rw [textWith_eq_form] at he
  rcases exists_of_openedText_eq_error he with hc | ⟨ho, he⟩
  · exact .inr (.inl hc)
  rw [formText] at he
  cases hf : e.form c.value with
  | leaf =>
    rw [hf] at he
    obtain ⟨y, hy, rfl⟩ := lift_eq_error he
    exact .inr (.inr ⟨y, own (Value.isOwn_of_leafText hy), rfl⟩)
  | items vs =>
    simp only [hf, arrayText_eq] at he
    rcases exists_of_containerText_eq_error he with hx | ⟨y, hy, -⟩ |
      ⟨hd, done, w, rest, bs, h₁, hvs, hrun, hw⟩
    · exact .inr (.inr ⟨.recursionLimit, own rfl, hx⟩)
    · cases hy
    · cases hvs
      exact .inl ⟨_, .item ho hf hd hrun, hw⟩
  | members ms =>
    simp only [hf, objectText_eq] at he
    rcases exists_of_containerText_eq_error he with hx | ⟨y, hy, hx⟩ |
      ⟨hd, done, ⟨key, w⟩, rest, bs, h₁, hts, hrun, hw⟩
    · exact .inr (.inr ⟨.recursionLimit, own rfl, hx⟩)
    · exact .inr (.inr ⟨y, own (isOwn_of_turns hy), hx⟩)
    · rcases exists_of_turnText_eq_error hw with ⟨y, hy, hx⟩ | ⟨k, rfl, hw⟩
      · have hown := isOwn_of_mem_turns hts (List.mem_append_right _ List.mem_cons_self) hy
        exact .inr (.inr ⟨y, own hown, hx⟩)
      · exact .inl ⟨_, .member ho hf hd hts hrun, hw⟩
  | level w =>
    rw [hf] at he
    rcases deeperText_eq_error he with ⟨hd, hw⟩ | hx
    · exact .inl ⟨_, .level ho hf hd, hw⟩
    · exact .inr (.inr ⟨.recursionLimit, own rfl, hx⟩)
  | asked =>
    rw [hf] at he
    rcases exists_of_replacedText_eq_error he with ⟨hook, w, h₁, hh, hd, ha, hw⟩ | hx | hx
    · exact .inl ⟨_, .answer ho hf hh hd ha, hw⟩
    · exact .inr (.inr ⟨.unsupported _, hno _, hx⟩)
    · exact .inr (.inr ⟨.hookRecursionLimit, hhook, hx⟩)

/-! ## The end of the descent -/

end Encoder

/-- How many levels and answers of the hook there may still be. -/
def Path.room (p : Path) : Nat := (Limits.maxDepth - p.depth) + (Limits.maxHookDepth - p.hookDepth)

namespace Encoder

variable {e : Encoder σ} {recur : Path → Value → TextM σ Bytes} {c d : Call σ} {budget : Nat}
  {x : Stop} {h' : σ}

/-- Each step inside takes some of the room. -/
theorem Enters.room_lt (h : e.Enters recur c d) : d.path.room < c.path.room := by
  have hdepth : c.inside.depth = c.path.depth := c.path.depth_into c.value
  have hhook : c.inside.hookDepth = c.path.hookDepth := c.path.hookDepth_into c.value
  cases h with
  | item _ _ hd _ | member _ _ hd _ _ | level _ _ hd =>
    simp only [Path.room, Path.deeper]
    omega
  | answer _ _ _ hd _ =>
    simp only [Path.room, Path.hooked]
    omega

/-- Where there is more budget than room, it is not the budget that ends the descent. -/
theorem text_ne_outOfBudget (hb : c.path.room < budget) :
    e.text budget c.path c.value c.hookState ≠ .error .outOfBudget h' := by
  induction budget generalizing c with
  | zero => exact absurd hb (Nat.not_lt_zero _)
  | succ budget ih =>
    intro he
    rcases entered_of_error he with ⟨d, hd, he⟩ | ⟨hx, -⟩ | ⟨y, -, hx⟩
    · exact ih (Nat.lt_of_lt_of_le hd.room_lt (Nat.le_of_lt_succ hb)) he
    · cases hx
    · cases hx

/-- **The guards end every descent: no value is refused for want of budget.** -/
theorem value_ne_outOfBudget (e : Encoder σ) (v : Value) (out : Array UInt8) (h : σ)
    (s : Session σ) :
    (e.value Encoder.budget v).run { out := out, hookState := h } ≠ .error .outOfBudget s := by
  intro he
  have hvalue := e.emits_value Encoder.budget {} v out h
  have hstart : Path.session {} out h = { out := out, hookState := h } := rfl
  rw [hstart] at hvalue
  cases ht : e.text Encoder.budget {} v h with
  | ok b h' =>
    rw [ht] at hvalue
    exact absurd (hvalue.symm.trans he) nofun
  | error stop h' =>
    rw [ht] at hvalue
    obtain ⟨s', more, hs, -⟩ := hvalue
    cases hs.symm.trans he
    have hroom : Path.room {} < Encoder.budget := by decide
    exact text_ne_outOfBudget (c := ⟨{}, v, h⟩) hroom ht

end Encoder

end JsonCodec
