/-
Documents of one value under two options that are alike piece by piece (`Translates`).

Where a relation between bytes holds of the lexemes that stand for a value under the two options, and
is kept when pieces are put together to a container, it holds of whole documents; and where there is
no document under one of the two there is none under the other, for the same reason
(`encodeWith_alike`). A text that is copied from elsewhere is left out, since nothing is known of it.
-/
import JsonCodec.Proofs.Encoder.Lexemes
import JsonCodec.Proofs.Encoder.OtherOptions
import JsonCodec.Proofs.Native

namespace JsonCodec

open Ascii Encoder Place TextM

variable {α β γ δ ι : Type}

/-- Either both give, with `P` between what they give, or both stop for the same reason. -/
inductive Alike (P : α → β → Prop) (t : TextM Unit α) (u : TextM Unit β) : Prop
  | gives {a : α} {b : β} (ht : Gives t a) (hu : Gives u b) (h : P a b)
  | stops {x : Stop} (ht : ∀ h, t h = .error x h) (hu : ∀ h, u h = .error x h)

namespace Alike

variable {P : α → β → Prop} {Q : γ → δ → Prop} {t : TextM Unit α} {u : TextM Unit β}

theorem pure {a : α} {b : β} (h : P a b) : Alike P (Pure.pure a) (Pure.pure b) :=
  .gives (gives_pure a) (gives_pure b) h

theorem throw (x : Stop) : Alike P (MonadExcept.throw x) (MonadExcept.throw x) :=
  .stops (fun _ => rfl) fun _ => rfl

theorem bind {f : α → TextM Unit γ} {g : β → TextM Unit δ} (h : Alike P t u)
    (hf : ∀ a b, P a b → Alike Q (f a) (g b)) : Alike Q (t >>= f) (u >>= g) := by
  have stop {α γ : Type} {t : TextM Unit α} {f : α → TextM Unit γ} {x : Stop}
      (ht : ∀ h, t h = .error x h) : ∀ h, (t >>= f) h = .error x h := by
    intro h
    simp only [Bind.bind, EStateM.bind, ht h]
  cases h with
  | stops ht hu => exact .stops (stop ht) (stop hu)
  | gives ht hu h =>
    have run {α γ : Type} {t : TextM Unit α} {f : α → TextM Unit γ} {a : α} (ht : Gives t a) :
        ∀ h, (t >>= f) h = f a h := by
      intro h
      simp only [Bind.bind, EStateM.bind, ht h]
    cases hf _ _ h with
    | gives hf hg h => exact .gives (ht.trans hf) (hu.trans hg) h
    | stops hf hg =>
      exact .stops (fun h => (run ht h).trans (hf h)) fun h => (run hu h).trans (hg h)

/-- One result under both. -/
theorem lift {P : α → α → Prop} {x : Except EncodeError α} (h : ∀ a, x = .ok a → P a a) :
    Alike P (TextM.lift x) (TextM.lift x) := by
  cases x with
  | ok a => exact .pure (h a rfl)
  | error y => exact .throw (.refused y)

/-- Parts are given in turn, and the first that is not is the end under both. -/
theorem partsText {P : Bytes → Bytes → Prop} {f f' : ι → TextM Unit Bytes} {lead lead' : Bool → Bytes}
    {xs : List ι} (first : Bool) (h : ∀ x ∈ xs, Alike P (f x) (f' x)) :
    Alike (fun b c => ∃ bs cs, List.Forall₂ P bs cs ∧ bs.length = xs.length ∧
        b = joined lead first bs ∧ c = joined lead' first cs)
      (Encoder.partsText lead first (xs.map f)) (Encoder.partsText lead' first (xs.map f')) := by
  induction xs generalizing first with
  | nil => exact .pure ⟨[], [], .nil, rfl, rfl, rfl⟩
  | cons x xs ih =>
    obtain ⟨hx, hxs⟩ := List.forall_mem_cons.1 h
    refine hx.bind fun b c hbc => (ih false hxs).bind ?_
    rintro _ _ ⟨bs, cs, hall, hlen, rfl, rfl⟩
    exact .pure ⟨b :: bs, c :: cs, .cons hbc hall, congrArg Nat.succ hlen, rfl, rfl⟩

end Alike

/-- `P` holds between what the lexemes of a value are under the options of `l` and under `o'`, and is
kept by containers. Keys have the same text, and the same order, under both. -/
structure Lookup.Translates (l : Lookup) (o' : Options) (P : Bytes → Bytes → Prop) : Prop where
  lookUp : l.options.LookUpAlike o'
  sortKeys : o'.sortKeys = l.options.sortKeys
  key : KeyText.ofValue l.graph o' = KeyText.ofValue l.graph l.options
  leaf {v : Value} (hf : l.encoder.form v = .leaf) (hfrag : v.isFragment = false) :
    Alike P (lift (v.leafText l.options)) (lift (v.leafText o'))
  member {k : KeyText} {b c : Bytes} (hk : k.IsSound) (h : P b c) :
    P (l.options.memberBytes (k, b)) (o'.memberBytes (k, c))
  bracketed {d : Nat} {left right : UInt8} {bs cs : List Bytes} (hl : isOpening left = true)
    (hr : isClosing right = true) (h : List.Forall₂ P bs cs) :
    P (l.options.bracketed d left right bs) (o'.bracketed d left right cs)

namespace Lookup

variable {l : Lookup} {o' : Options} {v w : Value} {P : Bytes → Bytes → Prop} {p : Path}

theorem NoFragment.of_leads (h : l.NoFragment v) (hw : l.Leads v w) : l.NoFragment w :=
  fun raw hr => h raw (.head hw hr)

theorem NoFragment.isFragment (h : l.NoFragment v) : v.isFragment = false := by
  cases v with
  | fragment raw => exact absurd .refl (h raw)
  | _ => rfl

namespace Translates

variable (hP : l.Translates o' P)
include hP

theorem containerText {left right : UInt8} (hl : isOpening left = true)
    (hr : isClosing right = true) {isEmpty : Bool} {y : Except EncodeError (List ι)}
    {f f' : ι → TextM Unit Bytes} (hd : p.depth < Limits.maxDepth)
    (hy : isEmpty = true ↔ y = .ok []) (h : ∀ xs, y = .ok xs → ∀ x ∈ xs, Alike P (f x) (f' x)) :
    Alike P (l.encoder.containerText p left right isEmpty (lift y >>= fun xs => pure (xs.map f)))
      ((l.under o').encoder.containerText p left right isEmpty
        (lift y >>= fun xs => pure (xs.map f'))) := by
  rw [containerText_of_lt hd, containerText_of_lt hd]
  cases hempty : isEmpty with
  | true => exact .pure (hP.bracketed (d := p.depth) hl hr .nil)
  | false =>
    simp only [Bool.false_eq_true, ite_false, bind_assoc, pure_bind]
    refine (Alike.lift (P := fun xs ys => xs = ys ∧ y = .ok xs) fun xs hxs => ⟨rfl, hxs⟩).bind ?_
    rintro xs _ ⟨rfl, hxs⟩
    refine (Alike.partsText true (h xs hxs)).bind ?_
    rintro _ _ ⟨bs, cs, hall, hlen, rfl, rfl⟩
    have hne : bs ≠ [] := by
      rintro rfl
      obtain rfl := List.length_eq_zero_iff.1 hlen.symm
      rw [hy.2 hxs] at hempty
      cases hempty
    have hne' : cs ≠ [] := by
      rintro rfl
      cases hall
      exact hne rfl
    have hpair := hP.bracketed (d := p.depth) hl hr hall
    rw [Options.bracketed, Options.bracketed, if_neg (mt List.isEmpty_iff.1 hne),
      if_neg (mt List.isEmpty_iff.1 hne')] at hpair
    exact .pure hpair

theorem turns (ms : Members) : (l.under o').encoder.turns ms = l.encoder.turns ms := by
  have hsort : (l.under o').encoder.options.sortKeys = l.encoder.options.sortKeys := hP.sortKeys
  have hkey : KeyText.ofValue (l.under o').encoder.graph (l.under o').encoder.options =
      KeyText.ofValue l.encoder.graph l.encoder.options := hP.key
  simp only [Encoder.turns, KeyText.sorted, KeyText.ofMembers, hsort, hkey]

theorem arrayText {recur recur' : Path → Value → TextM Unit Bytes} {vs : List Value}
    (hd : p.depth < Limits.maxDepth)
    (h : ∀ w ∈ vs, Alike P (recur p.deeper w) (recur' p.deeper w)) :
    Alike P (l.encoder.arrayText recur p vs) ((l.under o').encoder.arrayText recur' p vs) := by
  rw [arrayText_eq, arrayText_eq]
  refine hP.containerText rfl rfl hd ?_ fun xs hxs => ?_
  · rw [List.isEmpty_iff, Except.ok.injEq]
  · cases hxs
    exact h

theorem objectText {recur recur' : Path → Value → TextM Unit Bytes} {ms : Members}
    (hd : p.depth < Limits.maxDepth)
    (h : ∀ m ∈ ms, Alike P (recur p.deeper m.2) (recur' p.deeper m.2)) :
    Alike P (l.encoder.objectText recur p ms) ((l.under o').encoder.objectText recur' p ms) := by
  rw [objectText_eq, objectText_eq, hP.turns]
  refine hP.containerText rfl rfl hd ?_ fun ts hts t ht => ?_
  · rw [List.isEmpty_iff, turns_eq_ok_nil_iff]
  · obtain ⟨m, hm, rfl⟩ := exists_of_mem_turns hts ht
    refine (Alike.lift (P := fun k j => k = j ∧ k.IsSound) fun k hk => ?_).bind ?_
    · exact ⟨rfl, KeyText.isSound_ofValue hk⟩
    · rintro k _ ⟨rfl, hk⟩
      exact (h m hm).bind fun b c hbc => .pure (hP.member hk hbc)

/-- **What two values in two documents have in common is told of any value without fragments.** -/
theorem text (budget : Nat) (p : Path) (v : Value) (hf : l.NoFragment v) :
    Alike P (l.encoder.text budget p v) ((l.under o').encoder.text budget p v) := by
  have hcarries : l.Carries o' fun v t u => l.NoFragment v → Alike P t u := {
    lookUp := hP.lookUp
    stop := fun _ x _ => .throw x
    leaf := fun hleaf hf => hP.leaf hleaf hf.isFragment
    array := fun hd h hf => hP.arrayText hd fun w hw => h w hw (hf.of_leads (.item hw))
    object := fun hd h hf => hP.objectText hd fun m hm => h m hm (hf.of_leads (.member hm))
    found := fun hw h hf => h (hf.of_leads (.found hw)) }
  exact hcarries.text budget p v hf

end Translates

end Lookup

namespace Codec

/-- **Two documents of a value are alike as their lexemes are, and where there is none under one of
the options there is none under the other, for the same reason.** -/
theorem encodeWith_alike {mask mask' : UInt32} {o o' : Options} {g : Graph}
    {hook : Option (Value → Option Value)} {v : Value} {P : Bytes → Bytes → Prop}
    (hm : Options.ofMask? mask = .ok o) (hm' : Options.ofMask? mask' = .ok o')
    (hP : (Lookup.mk o g hook).Translates o' P) (hf : (Lookup.mk o g hook).NoFragment v) :
    (∃ b c, Gives ((Lookup.mk o g hook).encoder.text Encoder.budget {} v) b ∧
      Gives ((Lookup.mk o' g hook).encoder.text Encoder.budget {} v) c ∧ P b c) ∨
    ∃ x, (encodeWith mask g (hook.map Hook.ofFunction) () v).1 = .error (.encode x) ∧
      (encodeWith mask' g (hook.map Hook.ofFunction) () v).1 = .error (.encode x) := by
  cases hP.text Encoder.budget {} v hf with
  | gives ht hu h => exact .inl ⟨_, _, ht, hu, h⟩
  | @stops x ht hu =>
    have ht : (Encoder.mk o g (hook.map Hook.ofFunction)).text Encoder.budget {} v () = _ := ht ()
    have hu : (Encoder.mk o' g (hook.map Hook.ofFunction)).text Encoder.budget {} v () = _ := hu ()
    refine .inr ⟨x.error, ?_, ?_⟩
    · rw [encodeWith_eq hm, ht]
    · rw [encodeWith_eq hm', hu]

end Codec

end JsonCodec
