/-
How a document is indented. The indentation goes by levels, and a level is not always a bracket:
nodes, and application values that stand for another value, have levels of their own
(`Encoder.raises`). So the lines of a container inside one of these are too deep, and only those
(`Codec.encodeWith_indented`).

Around a call there are as many brackets as its depth says, less the handles on its path that raise.
So where `k` brackets are open around a call, whether the lines written in its course are indented
can be told from these two numbers (`Encoder.Aligned`).
-/
import JsonCodec.Proofs.Encoder.Cycles
import JsonCodec.Proofs.Encoder.Lines
import JsonCodec.Proofs.Encoder.Meaning

namespace JsonCodec

open Ascii Place TextM

variable {σ : Type}

/-- How many brackets a form opens around what is written inside. -/
def Form.brackets : Form → Nat
  | .items _ | .members _ => 1
  | _ => 0

/-- Whether there are parts, each on a line of its own. -/
def Form.hasLines : Form → Bool
  | .items vs => !vs.isEmpty
  | .members ms => !ms.isEmpty
  | _ => false

namespace Encoder

/-- Whether a handle has a level of its own. -/
def raises (e : Encoder σ) : Identity → Bool
  | .node _ => true
  | .foreign id => (e.graph.enumValue id).isSome

/-- How many levels of a path are those of handles. -/
def raised (e : Encoder σ) (p : Path) : Nat := p.opened.countP e.raises

/-- Where `k` brackets are open around `c`: every container with lines that is written in the course
of it has the depth of the brackets around it. -/
def Aligned (e : Encoder σ) (budget k : Nat) (c : Call σ) : Prop :=
  ∀ d, e.Writes budget c d → (e.form d.value).hasLines = true →
    k + e.raised c.path = c.path.depth + e.raised d.path

variable {e : Encoder σ} {recur : Path → Value → TextM σ Bytes} {c d : Call σ} {b : Bytes}
  {budget k : Nat} {w : Value} {h h' : σ}

/-! ## Depth and brackets -/

theorem raised_into_of_level {v : Value} (p : Path) (hf : e.form v = .level w) :
    e.raised (p.into v) = e.raised p + 1 := by
  cases v with
  | shared node => exact List.countP_cons_of_pos rfl
  | foreign id name =>
    refine List.countP_cons_of_pos ?_
    rw [form] at hf
    rw [raises]
    split at hf
    · next hv => rw [hv]; rfl
    · split at hf <;> cases hf
  | dateTime t | date t | time t =>
    rw [form] at hf
    split at hf <;> cases hf
  | _ => cases hf

theorem raised_into_of_ne {v : Value} (p : Path) (hf : ∀ w, e.form v ≠ .level w) :
    e.raised (p.into v) = e.raised p := by
  cases v with
  | shared node => exact absurd rfl (hf _)
  | foreign id name =>
    refine List.countP_cons_of_neg ?_
    rw [raises]
    cases hv : e.graph.enumValue id with
    | none => exact Bool.false_ne_true
    | some w => exact absurd (by rw [form, hv]) (hf w)
  | _ => rfl

/-- A step inside takes a level for a bracket, or for a handle that raises, or takes none. -/
theorem Enters.depth_eq (h : e.Enters recur c d) :
    d.path.depth + e.raised c.path =
      c.path.depth + (e.form c.value).brackets + e.raised d.path := by
  have hdepth : c.inside.depth = c.path.depth := c.path.depth_into c.value
  have hstay (hf : ∀ w, e.form c.value ≠ .level w) : e.raised c.inside = e.raised c.path :=
    raised_into_of_ne c.path hf
  cases h with
  | item _ hf _ _ | member _ hf _ _ _ =>
    have hraised : e.raised c.inside.deeper = e.raised c.path :=
      hstay fun w hw => by cases hf.symm.trans hw
    simp only [Path.deeper, hf, Form.brackets, hdepth] at hraised ⊢
    omega
  | level _ hf _ =>
    have hraised : e.raised c.inside.deeper = e.raised c.path + 1 := raised_into_of_level c.path hf
    simp only [Path.deeper, hf, Form.brackets, hdepth] at hraised ⊢
    omega
  | answer _ hf _ _ _ =>
    have hraised : e.raised c.inside.hooked = e.raised c.path :=
      hstay fun w hw => by cases hf.symm.trans hw
    simp only [Path.hooked, hf, Form.brackets, hdepth] at hraised ⊢
    omega

theorem aligned_succ : e.Aligned (budget + 1) k c ↔
    ((e.form c.value).hasLines = true → k = c.path.depth) ∧
      ∀ d, e.Enters (e.text budget) c d → e.Aligned budget (k + (e.form c.value).brackets) d := by
  constructor
  · intro hall
    refine ⟨fun hlines => Nat.add_right_cancel (hall c .self hlines), fun d hd f hf hlines => ?_⟩
    have hc := hall f (.inside hd hf) hlines
    have hstep := hd.depth_eq
    omega
  · rintro ⟨hself, hinside⟩ f hf hlines
    cases hf with
    | self => rw [hself hlines]
    | inside hd hf =>
      have hd' := hinside _ hd f hf hlines
      have hstep := hd.depth_eq
      omega

/-! ## What is written inside -/

/-- A part is the text of a call, with a key in front of it where it is a member. -/
inductive IsPartOf (e : Encoder σ) (recur : Path → Value → TextM σ Bytes) (d : Call σ) : Bytes → Prop
  | item {w : Bytes} {h' : σ} (hw : recur d.path d.value d.hookState = .ok w h') :
    IsPartOf e recur d w
  | member {k : KeyText} {w : Bytes} {h' : σ} (hk : k.IsSound)
    (hw : recur d.path d.value d.hookState = .ok w h') :
    IsPartOf e recur d (e.options.memberBytes (k, w))

/-- The parts of a container are those of the calls that are entered next inside it. -/
structure ArePartsOf (e : Encoder σ) (recur : Path → Value → TextM σ Bytes) (c : Call σ)
    (bs : List Bytes) : Prop where
  hasLines_iff : (e.form c.value).hasLines = true ↔ bs ≠ []
  of_mem : ∀ part ∈ bs, ∃ d, e.Enters recur c d ∧ e.IsPartOf recur d part
  of_enters : ∀ d, e.Enters recur c d → ∃ part ∈ bs, e.IsPartOf recur d part

theorem arePartsOf_items {vs : List Value} {bs : List Bytes} (ho : ¬c.IsCircular)
    (hv : e.form c.value = .items vs) (hd : c.inside.depth < Limits.maxDepth)
    (hruns : Runs (vs.map (recur c.inside.deeper)) c.hookState bs h') : e.ArePartsOf recur c bs where
  hasLines_iff := by
    rw [hv, Form.hasLines, Ne, hruns.eq_nil_iff]
    simp
  of_mem part hpart := by
    obtain ⟨done, w, rest, cs, h₁, h₂, rfl, hdone, ht⟩ := hruns.exists_of_mem hpart
    exact ⟨_, .item ho hv hd hdone, .item ht⟩
  of_enters d hin := by
    cases hin with
    | item _ hf _ hrun =>
      cases hv.symm.trans hf
      obtain ⟨part, hpart, h₂, ht⟩ := hruns.exists_of_append hrun
      exact ⟨part, hpart, .item ht⟩
    | member _ hf | level _ hf | answer _ hf => cases hv.symm.trans hf

/-- A key that has had its turn has a text. -/
theorem isSound_of_mem_turns {ms : Members} {ts : List (Except EncodeError KeyText × Value)}
    {k : KeyText} (hts : e.turns ms = .ok ts) (hm : (.ok k, w) ∈ ts) : k.IsSound := by
  obtain ⟨m, -, hm⟩ := exists_of_mem_turns hts hm
  exact KeyText.isSound_ofValue (Prod.mk.inj hm).1.symm

theorem arePartsOf_members {ms : Members} {ts : List (Except EncodeError KeyText × Value)}
    {bs : List Bytes} (ho : ¬c.IsCircular) (hv : e.form c.value = .members ms)
    (hd : c.inside.depth < Limits.maxDepth) (hts : e.turns ms = .ok ts)
    (hruns : Runs (ts.map (e.turnText (recur c.inside.deeper))) c.hookState bs h') :
    e.ArePartsOf recur c bs where
  hasLines_iff := by
    have hnil : ts = [] ↔ ms = [] := by
      rw [← turns_eq_ok_nil_iff (e := e), hts, Except.ok.injEq]
    rw [hv, Form.hasLines, Ne, hruns.eq_nil_iff, List.map_eq_nil_iff, hnil]
    simp
  of_mem part hpart := by
    obtain ⟨done, ⟨key, w⟩, rest, cs, h₁, h₂, rfl, hdone, ht⟩ := hruns.exists_of_mem hpart
    obtain ⟨k, b, rfl, hw, rfl⟩ := turnText_eq_ok_iff.1 ht
    have hk := isSound_of_mem_turns hts (List.mem_append_right _ List.mem_cons_self)
    exact ⟨_, .member ho hv hd hts hdone, .member hk hw⟩
  of_enters d hin := by
    cases hin with
    | member _ hf _ hts' hrun =>
      cases hv.symm.trans hf
      cases hts.symm.trans hts'
      obtain ⟨part, hpart, h₂, ht⟩ := hruns.exists_of_append hrun
      obtain ⟨k, b, hk, hw, rfl⟩ := turnText_eq_ok_iff.1 ht
      cases hk
      have hk := isSound_of_mem_turns hts (List.mem_append_right _ List.mem_cons_self)
      exact ⟨_, hpart, .member hk hw⟩
    | item _ hf | level _ hf | answer _ hf => cases hv.symm.trans hf

/-- **A container is written from the texts of what is written next inside it.** -/
theorem exists_parts (ho : ¬c.IsCircular) (hf : (e.form c.value).brackets = 1)
    (hb : e.formText recur c.inside c.value c.hookState = .ok b h') :
    ∃ left right bs, isOpening left = true ∧ isClosing right = true ∧
      b = e.options.bracketed c.path.depth left right bs ∧ e.ArePartsOf recur c bs := by
  have hdepth : c.inside.depth = c.path.depth := c.path.depth_into c.value
  rw [formText] at hb
  cases hv : e.form c.value with
  | items vs =>
    rw [hv] at hb
    obtain ⟨hd, vs', bs, hvs, hruns, rfl⟩ :=
      (containerText_eq_ok_iff (y := .ok vs) (by simp)).1 hb
    cases hvs
    exact ⟨_, _, bs, rfl, rfl, by rw [hdepth], arePartsOf_items ho hv hd hruns⟩
  | members ms =>
    have hempty : ms.isEmpty = true ↔ e.turns ms = .ok [] := by
      rw [turns_eq_ok_nil_iff, List.isEmpty_iff]
    simp only [hv, objectText_eq] at hb
    obtain ⟨hd, ts, bs, hts, hruns, rfl⟩ := (containerText_eq_ok_iff hempty).1 hb
    exact ⟨_, _, bs, rfl, rfl, by rw [hdepth], arePartsOf_members ho hv hd hts hruns⟩
  | leaf | level w | asked =>
    rw [hv] at hf
    cases hf

/-- What is no leaf and no container is written by the one value inside it. -/
theorem exists_entered_of_ok (ho : ¬c.IsCircular) (hleaf : e.form c.value ≠ .leaf)
    (hf : (e.form c.value).brackets = 0)
    (hb : e.formText recur c.inside c.value c.hookState = .ok b h') :
    ∃ d, (∀ f, e.Enters recur c f ↔ f = d) ∧ recur d.path d.value d.hookState = .ok b h' := by
  rw [formText] at hb
  cases hv : e.form c.value with
  | leaf => exact absurd hv hleaf
  | items vs | members ms =>
    rw [hv] at hf
    cases hf
  | level w =>
    rw [hv] at hb
    obtain ⟨hd, hb⟩ := deeperText_eq_ok_iff.1 hb
    refine ⟨_, fun f => ⟨fun hin => ?_, fun hin => hin ▸ .level ho hv hd⟩, hb⟩
    cases hin with
    | level _ hf' _ =>
      cases hv.symm.trans hf'
      rfl
    | item _ hf' | member _ hf' | answer _ hf' => cases hv.symm.trans hf'
  | asked =>
    rw [hv] at hb
    obtain ⟨hook, w, h₁, hh, hd, ha, hb⟩ := exists_of_replacedText_eq_ok hb
    refine ⟨_, fun f => ⟨fun hin => ?_, fun hin => hin ▸ .answer ho hv hh hd ha⟩, hb⟩
    cases hin with
    | answer _ _ hh' _ ha' =>
      cases hh.symm.trans hh'
      cases ha.symm.trans ha'
      rfl
    | item _ hf' | member _ hf' | level _ hf' => cases hv.symm.trans hf'

/-! ## Lines -/

/-- The text of a call as a part of what is around it: its lines are indented just if it is aligned. -/
structure IsLaidOut (e : Encoder σ) (budget : Nat) (c : Call σ) (b : Bytes) : Prop where
  isPart : IsPart b
  isIndented_iff : ∀ k, (outside k).IsIndented b [] ↔ e.Aligned budget k c

theorem isLaidOut_leaf (hleaf : e.form c.value = .leaf) (hfrag : c.value.isFragment = false)
    (hb : c.value.leafText e.options = .ok b) : e.IsLaidOut (budget + 1) c b := by
  have htoken := isToken_leafText hleaf hfrag hb
  refine ⟨htoken.isPart, fun k => iff_of_true ((htoken.quiet k).isIndented []) ?_⟩
  rw [aligned_succ, hleaf]
  refine ⟨fun hlines => absurd hlines Bool.false_ne_true, fun d hd => ?_⟩
  cases hd with
  | item _ hf | member _ hf | level _ hf | answer _ hf => cases hleaf.symm.trans hf

/-- What stands for a value is laid out as the value is. -/
theorem isLaidOut_of_entered (hf : (e.form c.value).brackets = 0)
    (hd : ∀ f, e.Enters (e.text budget) c f ↔ f = d) (hlaid : e.IsLaidOut budget d b) :
    e.IsLaidOut (budget + 1) c b := by
  have hnone : (e.form c.value).hasLines = false := by
    cases hv : e.form c.value with
    | items | members =>
      rw [hv] at hf
      cases hf
    | _ => rfl
  refine ⟨hlaid.isPart, fun k => ?_⟩
  rw [hlaid.isIndented_iff, aligned_succ, hf, hnone]
  simp only [Bool.false_eq_true, false_implies, true_and, hd, forall_eq, Nat.add_zero]

/-- A part is laid out as the text that it has from its call. -/
theorem IsPartOf.isLaidOut {part : Bytes} (h : e.IsPartOf recur d part)
    (hlaid : ∀ w h', recur d.path d.value d.hookState = .ok w h' → e.IsLaidOut budget d w) :
    e.IsLaidOut budget d part := by
  cases h with
  | item hw => exact hlaid _ _ hw
  | member hk hw =>
    have hvalue := hlaid _ _ hw
    refine ⟨Options.isPart_memberBytes hk hvalue.isPart, fun k => ?_⟩
    rw [Options.isIndented_memberBytes hk, hvalue.isIndented_iff]

/-- A container is laid out if what is inside it is. -/
theorem isLaidOut_container {left right : UInt8} {bs : List Bytes} (hi : e.options.indent2 = true)
    (hf : (e.form c.value).brackets = 1) (hl : isOpening left = true) (hr : isClosing right = true)
    (hparts : e.ArePartsOf (e.text budget) c bs)
    (hlaid : ∀ d part, e.Enters (e.text budget) c d → e.IsPartOf (e.text budget) d part →
      e.IsLaidOut budget d part) :
    e.IsLaidOut (budget + 1) c (e.options.bracketed c.path.depth left right bs) := by
  have hall : ∀ part ∈ bs, IsPart part := by
    intro part hmem
    obtain ⟨d, hd, hof⟩ := hparts.of_mem part hmem
    exact (hlaid d part hd hof).isPart
  refine ⟨Options.isPart_bracketed hi hl hr hall, fun k => ?_⟩
  rw [Options.isIndented_bracketed hi hl hr hall, aligned_succ, hparts.hasLines_iff, hf]
  refine and_congr (imp_congr_right fun _ => eq_comm) ⟨fun h d hd => ?_, fun h part hmem => ?_⟩
  · obtain ⟨part, hmem, hof⟩ := hparts.of_enters d hd
    exact ((hlaid d part hd hof).isIndented_iff (k + 1)).1 (h part hmem)
  · obtain ⟨d, hd, hof⟩ := hparts.of_mem part hmem
    exact ((hlaid d part hd hof).isIndented_iff (k + 1)).2 (h d hd)

/-- **A text without fragments is laid out.** -/
theorem isLaidOut_text (hi : e.options.indent2 = true)
    (hfrag : ∀ d, e.Writes budget c d → d.value.isFragment = false)
    (hb : e.text budget c.path c.value c.hookState = .ok b h') : e.IsLaidOut budget c b := by
  induction budget generalizing c b h' with
  | zero => cases hb
  | succ budget ih =>
    have hlaid (d : Call σ) (hd : e.Enters (e.text budget) c d) (w : Bytes) (h' : σ)
        (hw : e.text budget d.path d.value d.hookState = .ok w h') : e.IsLaidOut budget d w :=
      ih (fun f hf => hfrag f (.inside hd hf)) hw
    rw [text_succ] at hb
    obtain ⟨ho, hb⟩ := openedText_eq_ok_iff.1 hb
    by_cases hleaf : e.form c.value = .leaf
    · rw [formText, hleaf] at hb
      exact isLaidOut_leaf hleaf (hfrag c .self) (lift_eq_ok_iff.1 hb).1
    · have hcases : (e.form c.value).brackets = 0 ∨ (e.form c.value).brackets = 1 := by
        cases e.form c.value <;> simp [Form.brackets]
      rcases hcases with hzero | hone
      · obtain ⟨d, hd, hw⟩ := exists_entered_of_ok ho hleaf hzero hb
        exact isLaidOut_of_entered hzero hd (hlaid d ((hd d).2 rfl) b h' hw)
      · obtain ⟨left, right, bs, hl, hr, rfl, hparts⟩ := exists_parts ho hone hb
        exact isLaidOut_container hi hone hl hr hparts fun d part hd hof => hof.isLaidOut (hlaid d hd)

end Encoder

/-- Every line of a document that starts outside a text is indented. The line feed that is asked for
at the end starts no line. -/
def Document.IsIndented (o : Options) (out : Bytes) : Prop :=
  ∀ before after, out = before ++ lineFeed :: after → (Place.run {} before).inText = false →
    ¬(o.appendNewline = true ∧ after = []) → (Place.run {} before).Indents after

/-- The line feed at the end is behind all lines. -/
theorem Document.isIndented_iff (o : Options) (b : Bytes) :
    IsIndented o (Encoder.document o b) ↔
      (outside 0).IsIndented b (if o.appendNewline then [lineFeed] else []) := by
  rw [IsIndented, Encoder.document]
  split
  · next happ =>
    constructor
    · intro h before after hb hout
      exact h before (after ++ [lineFeed]) (by simp [hb]) hout (by simp)
    · intro h before after hb hout hlast
      -- The last line feed is the one that is asked for, so there is another behind this line.
      rcases List.eq_nil_or_concat after with rfl | ⟨more, x, rfl⟩
      · exact absurd ⟨happ, rfl⟩ hlast
      · rw [List.concat_eq_append, ← List.cons_append, ← List.append_assoc] at hb
        obtain ⟨hb, hx⟩ := List.append_inj' hb rfl
        rw [List.concat_eq_append, ← hx]
        exact h before more hb hout
  · next happ =>
    constructor
    · intro h before after hb hout
      rw [List.append_nil]
      exact h before after hb hout fun hlast => happ hlast.1
    · intro h before after hb hout _
      have hline := h before after hb hout
      rwa [List.append_nil] at hline

namespace Codec

/-- **What is written without a fragment is indented by its brackets just if no container with lines
is inside a node, or inside an application value that stands for another value.** -/
theorem encodeWith_indented {mask : UInt32} {o : Options} (hm : Options.ofMask? mask = .ok o)
    (hi : o.indent2 = true) {g : Graph} {hook : Option (Hook σ)} {h : σ} {v : Value} {b : Bytes}
    (hfrag : ∀ c, (Encoder.mk o g hook).Writes Encoder.budget ⟨{}, v, h⟩ c →
      c.value.isFragment = false)
    (hb : (encodeWith mask g hook h v).1 = .ok b) :
    let e := Encoder.mk o g hook
    Document.IsIndented o b ↔
      ∀ c, e.Writes Encoder.budget ⟨{}, v, h⟩ c → (e.form c.value).hasLines = true →
        ∀ i ∈ c.path.opened, e.raises i = false := by
  intro e
  rw [encodeWith_eq hm] at hb
  cases ht : e.text Encoder.budget {} v h with
  | error stop h' =>
    rw [ht] at hb
    cases hb
  | ok text h' =>
    rw [ht] at hb
    cases hb
    have hlaid := Encoder.isLaidOut_text (c := ⟨{}, v, h⟩) hi hfrag ht
    rw [Document.isIndented_iff, hlaid.isPart.alone, hlaid.isIndented_iff, Encoder.Aligned]
    refine forall_congr' fun c => forall_congr' fun _ => forall_congr' fun _ => ?_
    have hstart : e.raised {} = 0 := rfl
    rw [hstart, Nat.add_zero, Nat.zero_add, eq_comm, Encoder.raised, List.countP_eq_zero]
    simp only [Bool.not_eq_true]
    rfl

/-! ## A node -/

/-- A node of an array. -/
def arrayNode : Graph := Graph.empty.setNode ⟨0⟩ (.array [.null])

theorem noFragment_arrayNode :
    (Lookup.mk { indent2 := true } arrayNode none).NoFragment (.shared ⟨0⟩) := by
  refine .of_closed (fun u => u = .shared ⟨0⟩ ∨ u = .array [.null] ∨ u = .null) (.inl rfl) ?_ ?_
  · rintro u w (rfl | rfl | rfl) hw
    · cases hw with
      | found hf =>
        cases hf
        exact .inr (.inl rfl)
    · cases hw with
      | item hw => exact .inr (.inr (List.mem_singleton.1 hw))
      | found hf => cases hf
    · cases hw with
      | found hf => cases hf
  · intro raw h
    rcases h with h | h | h <;> cases h

theorem encodeWith_arrayNode : (encodeWith 1 arrayNode (none : Option (Hook Unit)) ()
    (.shared ⟨0⟩)).1 = .ok (Utf8.encode "[\n    null\n  ]") := by
  rw [encodeWith_eq (o := { indent2 := true }) rfl]
  rfl

theorem encodeWith_indented_arrayNode :
    let o : Options := { indent2 := true }
    let e : Encoder Unit := { options := o, graph := arrayNode }
    ∃ b, (encodeWith 1 arrayNode none () (.shared ⟨0⟩)).1 = .ok b ∧
      (Document.IsIndented o b ↔
        ∀ c, e.Writes Encoder.budget ⟨{}, .shared ⟨0⟩, ()⟩ c → (e.form c.value).hasLines = true →
          ∀ i ∈ c.path.opened, e.raises i = false) := by
  intro o e
  refine ⟨_, encodeWith_arrayNode, encodeWith_indented (o := o) rfl rfl (fun c hc => ?_)
    encodeWith_arrayNode⟩
  have hreach := Lookup.reaches_of_writes (l := ⟨o, arrayNode, none⟩) hc
  cases hv : c.value with
  | fragment raw => exact absurd (hv ▸ hreach) (noFragment_arrayNode raw)
  | _ => rfl

/-- The lines of the array are two spaces too deep. -/
theorem not_isIndented_arrayNode :
    let o : Options := { indent2 := true }
    ∃ b, (encodeWith 1 arrayNode none () (.shared ⟨0⟩)).1 = .ok b ∧
      (Lookup.mk o arrayNode none).NoFragment (.shared ⟨0⟩) ∧ ¬Document.IsIndented o b := by
  refine ⟨_, encodeWith_arrayNode, noFragment_arrayNode, fun hind => ?_⟩
  have hline := hind [bracketOpen] (Utf8.encode "    null\n  ]") rfl rfl nofun
  cases hline

end Codec

end JsonCodec
