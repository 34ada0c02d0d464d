/-
Values that contain themselves (`Lookup.ReachesCycle`). An encoding without a hook refuses a value as
circular only if it reaches a handle that reaches itself, so that a handle may be met as often as one
likes; and what reaches such a handle is not written (`encodeWith_circular`).

The handles that are open are those on the path from the top, whence the one direction
(`exists_of_mem_opened`). For the other there is no need to look at the guard: what is written is
written in finitely many steps, so nothing leads down from it for ever (`isFinite_of_gives`).
-/
import JsonCodec.Proofs.Encoder.Calls
import JsonCodec.Proofs.Encoder.TreeWriting

namespace JsonCodec

open Relation

namespace Lookup

open Encoder

variable {l : Lookup} {v w : Value} {budget : Nat} {c d : Call Unit}

/-- `v` reaches a handle that reaches itself. -/
def ReachesCycle (l : Lookup) (v : Value) : Prop :=
  ∃ i u w, u.handle? = some i ∧ w.handle? = some i ∧ l.Reaches v u ∧ TransGen l.Leads u w

/-! ## From call to call -/

/-- What a form has inside is what the value leads to. -/
def Inside (l : Lookup) (v : Value) : Form → Prop
  | .leaf => True
  | .items vs => v = .array vs
  | .members ms => v = .object ms ∨ l.find? v = some (.object ms)
  | .level w => l.find? v = some w
  | .asked => l.find? v = l.offered? v

theorem inside_form (l : Lookup) (v : Value) : l.Inside v (l.encoder.form v) := by
  cases v with
  | foreign id name =>
    have hfields : l.encoder.fields? id =
        if l.options.passthroughDataclass then none else l.graph.fields id := rfl
    have hvalue : l.encoder.graph.enumValue id = l.graph.enumValue id := rfl
    rw [Encoder.form, hvalue, hfields]
    cases hv : l.graph.enumValue id with
    | some w => simp only [Inside, find?, hv]
    | none =>
      cases hf : (if l.options.passthroughDataclass then none else l.graph.fields id) with
      | some ms => simp only [Inside, find?, hv, hf, reduceCtorEq, or_true]
      | none => simp only [Inside, find?, hv, hf]
  | dateTime t | date t | time t =>
    rw [Encoder.form, options_encoder]
    split
    · next hp => exact if_pos hp
    · trivial
  | object ms => exact .inl rfl
  | array vs => exact rfl
  | shared node => exact rfl
  | _ => trivial

/-- **A step from call to call goes along the value.** -/
theorem leads_of_enters {recur : Path → Value → TextM Unit Bytes} (h : l.encoder.Enters recur c d) :
    TransGen l.Leads c.value d.value := by
  have hform := l.inside_form c.value
  cases h with
  | item _ hf _ _ =>
    rw [hf] at hform
    have hv : c.value = _ := hform
    rw [hv]
    exact .single (.item (List.mem_append_right _ List.mem_cons_self))
  | @member ms _ _ k w _ _ _ hf _ hts _ =>
    rw [hf] at hform
    obtain ⟨m, hm, ht⟩ := exists_of_mem_turns hts (List.mem_append_right _ List.mem_cons_self)
    obtain ⟨-, rfl⟩ := Prod.mk.inj ht
    have hmember : l.Leads (.object ms) m.2 := .member hm
    rcases hform with hv | hfind
    · rw [hv]
      exact .single hmember
    · exact .head (.found hfind) (.single hmember)
  | level _ hf _ =>
    rw [hf] at hform
    exact .single (.found hform)
  | @answer hook w h' _ hf hh _ hw =>
    rw [hf] at hform
    cases hl : l.hook with
    | none =>
      rw [encoder, hl] at hh
      cases hh
    | some f =>
      rw [encoder, hl] at hh
      cases hh
      have hoffer : l.offered? c.value = some w := by
        rw [offered?, hl, Option.bind_some]
        exact congrArg Prod.fst hw
      exact .single (.found (hform.trans hoffer))

theorem reaches_of_writes (h : l.encoder.Writes budget c d) : l.Reaches c.value d.value := by
  induction h with
  | self => exact .refl
  | inside hstep _ ih => exact (leads_of_enters hstep).to_reflTransGen.trans ih

/-! ## The handles on the path -/

theorem opened_of_enters {recur : Path → Value → TextM Unit Bytes}
    (h : l.encoder.Enters recur c d) : d.path.opened = c.inside.opened := by
  cases h <;> rfl

theorem mem_opened_inside {i : Identity} (h : i ∈ c.inside.opened) :
    c.value.handle? = some i ∨ i ∈ c.path.opened := by
  rw [Call.inside, Path.into] at h
  cases hv : c.value.handle? with
  | none =>
    rw [hv] at h
    exact .inr h
  | some j =>
    rw [hv] at h
    exact (List.mem_cons.1 h).imp_left fun hij => congrArg some hij.symm

/-- **A handle that is open is that of a value on the way down to the call.** -/
theorem exists_of_mem_opened (h : l.encoder.Writes budget c d) :
    ∀ i ∈ d.path.opened, i ∈ c.path.opened ∨
      ∃ u, u.handle? = some i ∧ l.Reaches c.value u ∧ TransGen l.Leads u d.value := by
  induction h with
  | self => exact fun i hi => .inl hi
  | @inside budget c d f hstep hrest ih =>
    intro i hi
    have hlead := leads_of_enters hstep
    rcases ih i hi with hi | ⟨u, hu, hreach, hdown⟩
    · rw [opened_of_enters hstep] at hi
      rcases mem_opened_inside hi with hv | hi
      · exact .inr ⟨c.value, hv, .refl, hlead.trans_left (reaches_of_writes hrest)⟩
      · exact .inl hi
    · exact .inr ⟨u, hu, hlead.to_reflTransGen.trans hreach, hdown⟩

/-- What is refused as circular is so for a value that is inside itself. -/
theorem exists_circular {h : Unit} (he : l.encoder.text budget c.path c.value c.hookState =
    .error (.refused .circularReference) h) : ∃ d, l.encoder.Writes budget c d ∧ d.IsCircular := by
  induction budget generalizing c with
  | zero => cases he
  | succ budget ih =>
    rcases entered_of_error he with ⟨d, hstep, he⟩ | ⟨-, hc⟩ | ⟨y, hy, hx⟩
    · obtain ⟨f, hrest, hf⟩ := ih he
      exact ⟨f, .inside hstep hrest, hf⟩
    · exact ⟨c, .self, hc⟩
    · cases hx
      exact absurd rfl hy

theorem reachesCycle_of_text {h : Unit} (he : l.encoder.text budget {} v () =
    .error (.refused .circularReference) h) : l.ReachesCycle v := by
  obtain ⟨d, hwrites, i, hi, hd⟩ := exists_circular (c := ⟨{}, v, ()⟩) he
  rcases exists_of_mem_opened hwrites i hi with hnil | ⟨u, hu, hreach, hdown⟩
  · cases hnil
  · exact ⟨i, u, d.value, hu, hd, hreach, hdown⟩

/-! ## What is written is finite -/

theorem not_leads_of_isLeaf (h : l.isLeaf v = true) : ¬l.Leads v w := by
  intro hw
  cases hw with
  | item | member => cases h
  | found hf =>
    rw [find?_of_isLeaf h] at hf
    cases hf

/-- Everything inside `v` is written in finitely many steps. -/
def IsFinite (l : Lookup) (v : Value) : Prop := Acc (fun w u => l.Leads u w) v

theorem IsFinite.of_found (hf : l.find? v = some w) (hw : l.IsFinite w) : l.IsFinite v := by
  refine .intro v fun u hu => ?_
  cases hu with
  | item | member => cases hf
  | found hu =>
    rw [hf] at hu
    cases hu
    exact hw

theorem isFinite_array {vs : List Value} (h : ∀ w ∈ vs, l.IsFinite w) : l.IsFinite (.array vs) :=
  .intro _ fun w hw => h w hw.mem_of_array

theorem isFinite_object {ms : Members} (h : ∀ m ∈ ms, l.IsFinite m.2) :
    l.IsFinite (.object ms) := by
  refine .intro _ fun w hw => ?_
  obtain ⟨m, hm, rfl⟩ := hw.exists_of_object
  exact h m hm

/-- **What has a text is finite.** -/
theorem isFinite_of_gives {p : Path} {b : Bytes} (h : Gives (l.encoder.text budget p v) b) :
    l.IsFinite v := by
  induction budget generalizing p v b with
  | zero => cases h ()
  | succ budget ih =>
    have object {q : Path} {ms : Members} {b : Bytes}
        (hb : Gives (l.encoder.objectText (l.encoder.text budget) q ms) b) :
        l.IsFinite (.object ms) := by
      obtain ⟨-, -, B, -, hB, -⟩ := exists_of_gives_objectText hb
      exact isFinite_object fun m hm => ih (hB m hm)
    cases written_of_gives h with
    | leaf hl _ => exact .intro v fun w hw => absurd hw (not_leads_of_isLeaf hl)
    | array hb =>
      obtain ⟨-, B, hB, -⟩ := exists_of_gives_arrayText hb
      exact isFinite_array fun w hw => ih (hB w hw)
    | object hb => exact object hb
    | found hf _ hb => exact .of_found hf (ih hb)
    | fields hf _ hb => exact .of_found hf (object hb)

theorem IsFinite.not_leads_self (h : l.IsFinite v) : ¬TransGen l.Leads v v := by
  induction h with
  | intro v _ ih =>
    intro hc
    obtain ⟨w, hw, hback⟩ := TransGen.head'_iff.1 hc
    exact ih w hw (.tail' hback hw)

theorem IsFinite.of_reaches (h : l.IsFinite v) (hw : l.Reaches v w) : l.IsFinite w := by
  induction hw with
  | refl => exact h
  | tail _ hstep ih => exact ih.inv hstep

/-- Without a hook, what a handle leads to is a matter of the handle alone. -/
theorem leads_of_handle {i : Identity} {u x : Value} (hn : l.hook = none) (hu : u.handle? = some i)
    (hw : w.handle? = some i) (hx : l.Leads u x) : l.Leads w x := by
  have hoffer (v : Value) : l.offered? v = none := by rw [offered?, hn, Option.bind_none]
  cases u with
  | shared node =>
    cases hu
    cases w with
    | shared node' =>
      cases hw
      exact hx
    | _ => cases hw
  | foreign id name =>
    cases hu
    cases w with
    | foreign id' name' =>
      cases hw
      cases hx with
      | found hf =>
        rw [find?, hoffer] at hf
        exact .found (by rw [find?, hoffer]; exact hf)
    | _ => cases hw
  | _ => cases hu

/-- What is finite reaches no cycle. -/
theorem IsFinite.not_reachesCycle (hn : l.hook = none) (h : l.IsFinite v) : ¬l.ReachesCycle v := by
  rintro ⟨i, u, w, hu, hw, hreach, hdown⟩
  -- `w` need not be `u`, but what `u` leads to is led to again from `w`.
  obtain ⟨x, hux, hxw⟩ := TransGen.head'_iff.1 hdown
  have hcycle : TransGen l.Leads x x := .tail' hxw (leads_of_handle hn hu hw hux)
  exact (h.of_reaches (hreach.tail hux)).not_leads_self hcycle

end Lookup

namespace Options

/-- The options that the bits of a mask say, whether or not there are bits of no flag among them. -/
def ofBits (mask : UInt32) : Options := ofFlags fun flag => mask &&& flag.bit != 0

theorem eq_ofBits {mask : UInt32} {o : Options} (h : ofMask? mask = .ok o) : o = ofBits mask := by
  rw [ofMask?] at h
  split at h
  · cases h
    rfl
  · cases h

end Options

namespace Codec

variable {mask : UInt32} {o : Options} {g : Graph} {v : Value}

theorem reachesCycle_of_encodeWith (hm : Options.ofMask? mask = .ok o)
    (he : (encodeWith mask g none () v).1 = .error (.encode .circularReference)) :
    (Lookup.mk o g none).ReachesCycle v := by
  obtain ⟨h, ht⟩ := exists_refused_of_encodeWith (x := .circularReference) hm (by simp) he
  exact Lookup.reachesCycle_of_text (l := ⟨o, g, none⟩) ht

theorem not_reachesCycle_of_encodeWith {b : Bytes}
    (hb : (encodeWith mask g none () v).1 = .ok b) :
    ¬(Lookup.mk (.ofBits mask) g none).ReachesCycle v := by
  cases hm : Options.ofMask? mask with
  | error y =>
    simp only [encodeWith, hm] at hb
    cases hb
  | ok o =>
    obtain rfl := Options.eq_ofBits hm
    obtain ⟨c, hc, -⟩ := (@encodeWith_eq_ok_iff mask _ g none v b hm).1 hb
    exact (Lookup.isFinite_of_gives hc).not_reachesCycle rfl

/-- **Without a hook, a value is refused as circular only if it reaches a handle that reaches itself; a
value that does so is never written; and every encoding comes to an end by itself.** -/
theorem encodeWith_circular (mask : UInt32) (g : Graph) (v : Value) :
    let l : Lookup := { options := .ofBits mask, graph := g }
    ((encodeWith mask g none () v).1 = .error (.encode .circularReference) → l.ReachesCycle v) ∧
    (l.ReachesCycle v → ∃ x, (encodeWith mask g none () v).1 = .error x) ∧
    ∀ out s, (l.encoder.value Encoder.budget v).run { out := out, hookState := () } ≠
      .error .outOfBudget s := by
  intro l
  refine ⟨fun he => ?_, fun hc => ?_, fun out s => Encoder.value_ne_outOfBudget l.encoder v out () s⟩
  · cases hm : Options.ofMask? mask with
    | error y =>
      simp only [encodeWith, hm] at he
      cases he
    | ok o =>
      obtain rfl := Options.eq_ofBits hm
      exact reachesCycle_of_encodeWith hm he
  · cases hb : (encodeWith mask g none () v).1 with
    | error x => exact ⟨x, rfl⟩
    | ok b => exact absurd hc (not_reachesCycle_of_encodeWith hb)

end Codec

end JsonCodec
