/-
A session and the text: from the session at a path, writing a value appends its text and leads
back to that path (`emits_value`). So an encoding is the text of the value for the empty path
(`encodeInto_eq_text`), and after an error nothing but the state of the hook is left of it.
-/
import JsonCodec.Codec
import JsonCodec.Proofs.Encoder.Forms

namespace JsonCodec

variable {σ : Type}

/-- The session at a path. -/
def Path.session (p : Path) (out : Array UInt8) (h : σ) : Session σ where
  out := out
  depth := { current := p.depth }
  opened := ⟨p.opened⟩
  hookDepth := p.hookDepth
  hookState := h

namespace WriteM

/-! ## Steps along the path -/

variable {p : Path} {i : Identity} {out : Array UInt8} {h : σ}

theorem get_apply (s : Session σ) : (get : WriteM σ (Session σ)) s = .ok s s := rfl

theorem enterLevel_of_lt (hd : p.depth < Limits.maxDepth) :
    (enterLevel : WriteM σ Unit) (p.session out h) = .ok () (p.deeper.session out h) := by
  have henter : DepthTracker.enter? { current := p.depth } = some { current := p.depth + 1 } :=
    if_pos hd
  simp only [enterLevel, Bind.bind, EStateM.bind, get_apply, Path.session, henter]
  rfl

theorem enterLevel_of_not_lt (hd : ¬p.depth < Limits.maxDepth) :
    (enterLevel : WriteM σ Unit) (p.session out h) =
      .error (.refused .recursionLimit) (p.session out h) := by
  have henter : DepthTracker.enter? { current := p.depth } = none := if_neg hd
  simp only [enterLevel, Bind.bind, EStateM.bind, get_apply, Path.session, henter]
  rfl

theorem openHandle_of_not_mem (hi : i ∉ p.opened) :
    (openHandle i : WriteM σ Unit) (p.session out h) = .ok () ((p.opening i).session out h) := by
  have hopen : CycleGuard.enter? ⟨p.opened⟩ i = some ⟨i :: p.opened⟩ := if_neg hi
  simp only [openHandle, Bind.bind, EStateM.bind, get_apply, Path.session, hopen]
  rfl

theorem openHandle_of_mem (hi : i ∈ p.opened) :
    (openHandle i : WriteM σ Unit) (p.session out h) =
      .error (.refused .circularReference) (p.session out h) := by
  have hopen : CycleGuard.enter? ⟨p.opened⟩ i = none := if_pos hi
  simp only [openHandle, Bind.bind, EStateM.bind, get_apply, Path.session, hopen]
  rfl

theorem closeHandle_of_not_mem (hi : i ∉ p.opened) :
    (closeHandle i : WriteM σ Unit) ((p.opening i).session out h) = .ok () (p.session out h) := by
  have hexit : CycleGuard.exit ⟨i :: p.opened⟩ i = ⟨p.opened⟩ :=
    CycleGuard.exit_of_enter? (CycleGuard.enter?_eq_some_iff.2 ⟨hi, rfl⟩)
  have hclose : (closeHandle i : WriteM σ Unit) ((p.opening i).session out h) =
      .ok () { (p.opening i).session out h with opened := CycleGuard.exit ⟨i :: p.opened⟩ i } := rfl
  rw [hclose, hexit]
  rfl

end WriteM

/-- From the path `p` on, `m` appends what `t` gives and comes to the path `q`. Where `t` fails, `m`
fails so too, and the buffer has only grown. -/
def Emits (m : WriteM σ Unit) (p q : Path) (t : TextM σ Bytes) : Prop :=
  ∀ out h, match t h with
    | .ok b h' => m (p.session out h) = .ok () (q.session (out ++ b) h')
    | .error stop h' => ∃ s, ∃ more : Bytes, m (p.session out h) = .error stop s ∧
        s.hookState = h' ∧ s.out = out ++ more

namespace Emits

open WriteM

variable {m k : WriteM σ Unit} {p q r : Path} {t u : TextM σ Bytes}

theorem append_append (out : Array UInt8) (a b : Bytes) : out ++ (a ++ b : Bytes) = out ++ a ++ b := by
  simp [← Array.toList_inj]

theorem push_eq (out : Array UInt8) (b : UInt8) : out.push b = out ++ [b] := by simp

theorem congr (h : Emits m p q t) (ht : t = u) : Emits m p q u := ht ▸ h

theorem nothing : Emits (σ := σ) (pure ()) p p (pure []) := by
  intro out h
  simp [pure, EStateM.pure]

/-- A step that appends. -/
theorem modify_out {f : Array UInt8 → Array UInt8} {b : Bytes} (hf : ∀ out, f out = out ++ b) :
    Emits (σ := σ) (modify fun s => { s with out := f s.out }) p p (pure b) := by
  intro out h
  simp only [pure, EStateM.pure, ← hf]
  rfl

theorem append (b : Bytes) : Emits (σ := σ) (WriteM.append b) p p (pure b) :=
  modify_out fun _ => rfl

theorem push (b : UInt8) : Emits (σ := σ) (WriteM.push b) p p (pure [b]) :=
  modify_out fun out => push_eq out b

theorem refuse (e : EncodeError) : Emits (σ := σ) (WriteM.refuse e) p q (TextM.refuse e) :=
  fun out h => ⟨p.session out h, [], rfl, rfl, by simp [Path.session]⟩

theorem bind (hm : Emits m p q t) (hk : Emits k q r u) :
    Emits (m >>= fun _ => k) p r (t >>= fun a => u >>= fun b => pure (a ++ b)) := by
  intro out h
  have h1 := hm out h
  simp only [Bind.bind, EStateM.bind]
  cases ht : t h with
  | error stop h' =>
    rw [ht] at h1
    obtain ⟨s, more, hs, hh, ho⟩ := h1
    exact ⟨s, more, by rw [hs], hh, ho⟩
  | ok a h' =>
    rw [ht] at h1
    have h2 := hk (out ++ a) h'
    simp only [h1]
    cases hu : u h' with
    | error stop h'' =>
      rw [hu] at h2
      obtain ⟨s, more, hs, hh, ho⟩ := h2
      exact ⟨s, a ++ more, hs, hh, by rw [ho, append_append]⟩
    | ok b h'' =>
      rw [hu] at h2
      simp only [pure, EStateM.pure, append_append]
      exact h2

/-- A value that is computed without the session. -/
theorem lift_bind {α : Type} {x : Except EncodeError α} {f : α → WriteM σ Unit}
    {g : α → TextM σ Bytes} (hf : ∀ a, x = .ok a → Emits (f a) p q (g a)) :
    Emits (WriteM.lift x >>= f) p q (TextM.lift x >>= g) := by
  cases x with
  | ok a => exact hf a rfl
  | error e => exact refuse e

/-- A step that appends nothing, behind another. -/
theorem bind_nothing (hm : Emits m p q t) (hk : Emits k q r (pure [])) :
    Emits (m >>= fun _ => k) p r t :=
  (hm.bind hk).congr (by simp only [pure_bind, List.append_nil, bind_pure])

/-! ## Steps along the path -/

/-- A step to another path, in front of another. -/
theorem step_bind (hm : ∀ out h, m (p.session out h) = .ok () (q.session out h))
    (hk : Emits k q r t) : Emits (m >>= fun _ => k) p r t := by
  intro out h
  simp only [Bind.bind, EStateM.bind, hm]
  exact hk out h

theorem refused_bind {e : EncodeError}
    (hm : ∀ out h, m (p.session out h) = .error (.refused e) (p.session out h)) :
    Emits (m >>= fun _ => k) p q (TextM.refuse e) := by
  intro out h
  simp only [Bind.bind, EStateM.bind, hm]
  exact ⟨p.session out h, [], rfl, rfl, by simp [Path.session]⟩

theorem enterLevel_bind (hk : Emits k p.deeper q t) :
    Emits (enterLevel >>= fun _ => k) p q
      (if p.depth < Limits.maxDepth then t else TextM.refuse .recursionLimit) := by
  split
  · next hd => exact step_bind (fun _ _ => enterLevel_of_lt hd) hk
  · next hd => exact refused_bind fun _ _ => enterLevel_of_not_lt hd

theorem exitLevel : Emits (σ := σ) WriteM.exitLevel p.deeper p (pure []) := by
  intro out h
  simp only [pure, EStateM.pure, Array.appendList_nil]
  rfl

theorem openHandle_bind {i : Identity} (hk : i ∉ p.opened → Emits k (p.opening i) q t) :
    Emits (openHandle i >>= fun _ => k) p q
      (if i ∈ p.opened then TextM.refuse .circularReference else t) := by
  split
  · next hi => exact refused_bind fun _ _ => openHandle_of_mem hi
  · next hi => exact step_bind (fun _ _ => openHandle_of_not_mem hi) (hk hi)

theorem closeHandle {i : Identity} (hi : i ∉ p.opened) :
    Emits (σ := σ) (WriteM.closeHandle i) (p.opening i) p (pure []) := by
  intro out h
  simp only [pure, EStateM.pure, Array.appendList_nil]
  exact closeHandle_of_not_mem hi

theorem enterHook_bind (hk : Emits k p.hooked q t) : Emits (enterHook >>= fun _ => k) p q t :=
  step_bind (fun _ _ => rfl) hk

theorem exitHook : Emits (σ := σ) WriteM.exitHook p.hooked p (pure []) := by
  intro out h
  simp only [pure, EStateM.pure, Array.appendList_nil]
  rfl

theorem get_bind {f : Session σ → WriteM σ Unit}
    (hf : ∀ s : Session σ, s.hookDepth = p.hookDepth → Emits (f s) p q t) :
    Emits (get >>= f) p q t :=
  fun out h => hf (p.session out h) rfl out h

theorem ask_bind {hook : Hook σ} {v : Value} {f : Option Value → WriteM σ Unit}
    {g : Option Value → TextM σ Bytes} (hf : ∀ answer, Emits (f answer) p q (g answer)) :
    Emits (WriteM.ask hook v >>= f) p q (TextM.ask hook v >>= g) := by
  intro out h
  exact hf ((hook v).run h).1 out ((hook v).run h).2

end Emits

open Ascii Emits

variable (e : Encoder σ) {p : Path}

namespace Encoder

theorem emits_lineBreak : Emits e.lineBreak p p (pure (e.options.breakAt p.depth)) := by
  rw [lineBreak, Options.breakAt]
  split
  · intro out h
    have hout : out.push lineFeed ++ List.replicate (2 * p.depth) space =
        out ++ (lineFeed :: List.replicate (2 * p.depth) space) := by simp
    simp only [pure, EStateM.pure, ← hout]
    rfl
  · exact nothing

theorem emits_beginElement (first : Bool) :
    Emits (e.beginElement first) p p (pure (e.options.leadAt p.depth first)) := by
  have hs : Emits (σ := σ) (separator first) p p (pure (if first then [] else [comma])) := by
    rw [separator]
    split
    · exact nothing
    · exact Emits.push comma
  exact (hs.bind e.emits_lineBreak).congr (by simp only [pure_bind]; rfl)

theorem emits_close (right : UInt8) :
    Emits (e.close right) p.deeper p (pure (e.options.breakAt p.depth ++ [right])) :=
  (exitLevel.bind (e.emits_lineBreak.bind (Emits.push right))).congr (by simp only [pure_bind]; rfl)

/-- A container, given what its inside is. -/
theorem emits_container {inside : WriteM σ Unit} {parts : TextM σ (List (TextM σ Bytes))}
    (left right : UInt8) (isEmpty : Bool)
    (h : Emits inside p.deeper p.deeper
      (parts >>= partsText (e.options.leadAt (p.depth + 1)) true)) :
    Emits (do
        WriteM.enterLevel
        if isEmpty then
          WriteM.append [left, right]
          WriteM.exitLevel
        else
          WriteM.push left
          inside
          e.close right) p p (e.containerText p left right isEmpty parts) := by
  refine enterLevel_bind ?_
  cases isEmpty with
  | true => exact (Emits.append [left, right]).bind_nothing exitLevel
  | false =>
    refine ((Emits.push left).bind (h.bind (e.emits_close right))).congr ?_
    simp

/-- Items in order. -/
theorem emits_items {recur : Value → WriteM σ Unit} {t : Value → TextM σ Bytes}
    (h : ∀ v, Emits (recur v) p p (t v)) (first : Bool) (vs : List Value) :
    Emits (e.items recur first vs) p p (partsText (e.options.leadAt p.depth) first (vs.map t)) := by
  induction vs generalizing first with
  | nil => exact nothing
  | cons v vs ih =>
    refine ((e.emits_beginElement first).bind ((h v).bind (ih false))).congr ?_
    simp [partsText]

theorem toList_append_key (key : KeyText) (out : Array UInt8) :
    key.append out e.options = out ++ key.quoted e.options := by
  rw [← Array.toList_inj, Array.toList_appendList]
  cases key with
  | own text | derived text => exact Quoted.toList_append out text _
  | plain bytes => simp [KeyText.append, KeyText.quoted]

/-- A member whose key is text already. -/
theorem emits_member {recur : Value → WriteM σ Unit} {t : TextM σ Bytes} {v : Value}
    (h : Emits (recur v) p p t) (first : Bool) (key : KeyText) :
    Emits (e.member recur first key v) p p
      (e.memberText key t >>= fun b => pure (e.options.leadAt p.depth first ++ b)) := by
  have hkey : Emits (σ := σ) (modify fun s => { s with out := key.append s.out e.options }) p p
      (pure (key.quoted e.options)) := modify_out (e.toList_append_key key)
  refine ((e.emits_beginElement first).bind (hkey.bind ((Emits.append _).bind h))).congr ?_
  simp [memberText, Options.afterKey]

theorem emits_members {recur : Value → WriteM σ Unit} {t : Value → TextM σ Bytes}
    (h : ∀ v, Emits (recur v) p p (t v)) (first : Bool) (ms : Members) :
    Emits (e.members recur first ms) p p
      (partsText (e.options.leadAt p.depth) first (ms.map fun (key, v) => do
        e.memberText (← TextM.lift (KeyText.ofValue e.graph e.options key)) (t v))) := by
  induction ms generalizing first with
  | nil => exact nothing
  | cons m ms ih =>
    obtain ⟨key, v⟩ := m
    have hmember : Emits (e.members recur first ((key, v) :: ms)) p p
        (TextM.lift (KeyText.ofValue e.graph e.options key) >>= fun key => _) :=
      lift_bind fun key _ => (e.emits_member (h v) first key).bind (ih false)
    refine hmember.congr ?_
    simp only [partsText, List.map_cons, bind_assoc, pure_bind]

theorem emits_renderedMembers {recur : Value → WriteM σ Unit} {t : Value → TextM σ Bytes}
    (h : ∀ v, Emits (recur v) p p (t v)) (first : Bool) (ms : List (KeyText × Value)) :
    Emits (e.renderedMembers recur first ms) p p
      (partsText (e.options.leadAt p.depth) first
        (ms.map fun (key, v) => e.memberText key (t v))) := by
  induction ms generalizing first with
  | nil => exact nothing
  | cons m ms ih =>
    obtain ⟨key, v⟩ := m
    refine ((e.emits_member (h v) first key).bind (ih false)).congr ?_
    simp only [partsText, List.map_cons, bind_assoc, pure_bind]

theorem emits_contents {recur : Value → WriteM σ Unit} {t : Value → TextM σ Bytes}
    (h : ∀ v, Emits (recur v) p p (t v)) (ms : Members) :
    Emits (e.contents recur ms) p p
      (e.memberTexts t ms >>= partsText (e.options.leadAt p.depth) true) := by
  rw [contents, memberTexts]
  split
  · rw [bind_assoc]
    exact lift_bind fun sorted _ => e.emits_renderedMembers h true sorted
  · exact e.emits_members h true ms

variable {recur : Value → WriteM σ Unit} {t : Path → Value → TextM σ Bytes}

theorem emits_array (h : ∀ p v, Emits (recur v) p p (t p v)) (vs : List Value) :
    Emits (e.array recur vs) p p (e.arrayText t p vs) :=
  e.emits_container bracketOpen bracketClose vs.isEmpty (e.emits_items (h p.deeper) true vs)

theorem emits_object (h : ∀ p v, Emits (recur v) p p (t p v)) (ms : Members) :
    Emits (e.object recur ms) p p (e.objectText t p ms) :=
  e.emits_container braceOpen braceClose ms.isEmpty (e.emits_contents (h p.deeper) ms)

theorem emits_deeper (h : ∀ p v, Emits (recur v) p p (t p v)) (v : Value) :
    Emits (do WriteM.enterLevel; recur v; WriteM.exitLevel) p p (deeperText t p v) :=
  enterLevel_bind ((h p.deeper v).bind_nothing exitLevel)

/-- What is done with an open handle. -/
theorem emits_opening {i : Identity} {m : WriteM σ Unit} {u : Path → TextM σ Bytes}
    (h : ∀ p, Emits m p p (u p)) :
    Emits (do WriteM.openHandle i; m; WriteM.closeHandle i) p p (openingText p i u) :=
  openHandle_bind fun hi => (h (p.opening i)).bind_nothing (closeHandle hi)

theorem emits_replaced (h : ∀ p v, Emits (recur v) p p (t p v)) (v : Value) :
    Emits (e.replaced recur v) p p (e.replacedText t p v) := by
  rw [replaced, replacedText]
  cases e.hook with
  | none => exact Emits.refuse _
  | some hook =>
    refine get_bind fun s hs => ?_
    simp only [hs]
    split
    · exact Emits.refuse _
    · refine ask_bind fun answer => ?_
      cases answer with
      | none => exact Emits.refuse _
      | some replacement => exact enterHook_bind ((h p.hooked replacement).bind_nothing exitHook)

theorem emits_formWrite (h : ∀ p v, Emits (recur v) p p (t p v)) (p : Path) (v : Value) :
    Emits (e.formWrite recur v) p p (e.formText t p v) := by
  rw [formWrite, formText]
  cases e.form v with
  | leaf => exact (lift_bind fun b _ => Emits.append b).congr (bind_pure _)
  | items vs => exact e.emits_array h vs
  | members ms => exact e.emits_object h ms
  | level w => exact emits_deeper h w
  | asked => exact e.emits_replaced h v

theorem emits_dispatch (h : ∀ p v, Emits (recur v) p p (t p v)) (p : Path) (v : Value) :
    Emits (e.dispatch recur v) p p (e.textWith t p v) := by
  rw [dispatch_eq_form, textWith_eq_form, withHandle, openedText]
  cases v.handle? with
  | none => exact e.emits_formWrite h p v
  | some i => exact emits_opening fun p => e.emits_formWrite h p v

/-- **Writing a value appends its text and leads back to the path that it was written at.** -/
theorem emits_value (budget : Nat) (p : Path) (v : Value) :
    Emits (e.value budget v) p p (e.text budget p v) := by
  induction budget generalizing p v with
  | zero => exact fun out h => ⟨p.session out h, [], rfl, rfl, by simp [Path.session]⟩
  | succ budget ih => exact e.emits_dispatch ih p v

/-- The text of a whole document. -/
def document (o : Options) (b : Bytes) : Bytes := if o.appendNewline then b ++ [lineFeed] else b

theorem take_append (out : Array UInt8) (more : Bytes) : (out ++ more).take out.size = out := by
  rw [← Array.toList_inj]
  simp

/-- **An encoding appends the text of the value, whatever is in the buffer on the way, or leaves the
buffer as it was.** -/
theorem encodeInto_eq_text (v : Value) (out : Array UInt8) (h : σ) :
    e.encodeInto v out h =
      match e.text budget {} v h with
      | .ok b h' => ⟨none, out ++ document e.options b, h'⟩
      | .error stop h' => ⟨some stop.error, out, h'⟩ := by
  have hvalue := e.emits_value budget {} v out h
  have hstart : Path.session {} out h = { out := out, hookState := h } := rfl
  rw [hstart] at hvalue
  simp only [encodeInto, EStateM.run]
  cases ht : e.text budget {} v h with
  | ok b h' =>
    rw [ht] at hvalue
    simp only [hvalue, document, Path.session]
    split
    · rw [append_append, push_eq]
    · rfl
  | error stop h' =>
    rw [ht] at hvalue
    obtain ⟨s, more, hs, hh, ho⟩ := hvalue
    simp only [hs, hh, ho, take_append]

end Encoder

namespace Codec

/-- An encoding under a mask is the text of the value. -/
theorem encodeWith_eq {mask : UInt32} {o : Options} (hm : Options.ofMask? mask = .ok o)
    (graph : Graph) (hook : Option (Hook σ)) (h : σ) (v : Value) :
    encodeWith mask graph hook h v =
      match (Encoder.mk o graph hook).text Encoder.budget {} v h with
      | .ok b h' => (.ok (Encoder.document o b), h')
      | .error stop h' => (.error (.encode stop.error), h') := by
  simp only [encodeWith, hm, Encoder.encodeInto_eq_text]
  cases (Encoder.mk o graph hook).text Encoder.budget {} v h with
  | ok b h' => simp
  | error stop h' => rfl

/-- What an encoding is refused for, the text is refused for; only the recursion limit may stand for
the end of the budget. -/
theorem exists_refused_of_encodeWith {mask : UInt32} {o : Options} (hm : Options.ofMask? mask = .ok o)
    {graph : Graph} {hook : Option (Hook σ)} {h : σ} {v : Value} {x : EncodeError}
    (hx : x ≠ .recursionLimit) (he : (encodeWith mask graph hook h v).1 = .error (.encode x)) :
    ∃ h', (Encoder.mk o graph hook).text Encoder.budget {} v h = .error (.refused x) h' := by
  rw [encodeWith_eq hm] at he
  cases ht : (Encoder.mk o graph hook).text Encoder.budget {} v h with
  | ok b h' =>
    rw [ht] at he
    cases he
  | error stop h' =>
    rw [ht] at he
    have hstop : stop.error = x := by simpa using he
    cases stop with
    | refused y =>
      obtain rfl : y = x := hstop
      exact ⟨h', rfl⟩
    | outOfBudget => exact absurd hstop.symm hx

end Codec

end JsonCodec
