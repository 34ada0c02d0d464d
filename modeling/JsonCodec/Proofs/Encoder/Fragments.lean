/-
A part of a value may be written beforehand: its own document stands for it in the whole, as a
fragment (`Codec.encodeWith_fragment`).

Two things make this true. Without lines, what a part is written as does not show where it stands:
what is written at a path is written alike wherever less is open (`Lookup.gives_text_within`). And a
container shows of a part nothing but what it is written as (`Encoder.exists_gives_item`,
`Encoder.exists_gives_member`).
-/
import JsonCodec.Proofs.Encoder.OtherOptions

namespace JsonCodec

open Ascii

/-- A value with a place left out: an item of an array or what stands under a key of an object, as
far down as one likes. -/
inductive Value.Context where
  | here
  | item (before : List Value) (inside : Context) (after : List Value)
  | member (before : Members) (key : Value) (inside : Context) (after : Members)

/-- The value with `w` in the place. -/
def Value.Context.fill (w : Value) : Value.Context → Value
  | here => w
  | item before inside after => .array (before ++ inside.fill w :: after)
  | member before key inside after => .object (before ++ (key, inside.fill w) :: after)

/-! ## Where less is open -/

/-- Whatever is open at `q` is open at `p`. -/
structure Path.Within (q p : Path) : Prop where
  depth : q.depth ≤ p.depth
  opened : ∀ i ∈ q.opened, i ∈ p.opened
  hookDepth : q.hookDepth ≤ p.hookDepth

namespace Path.Within

variable {p q r : Path}

theorem refl (p : Path) : Within p p := ⟨Nat.le_refl _, fun _ => id, Nat.le_refl _⟩

theorem trans (h : Within q p) (hr : Within p r) : Within q r :=
  ⟨Nat.le_trans h.depth hr.depth, fun i hi => hr.opened i (h.opened i hi),
    Nat.le_trans h.hookDepth hr.hookDepth⟩

theorem deeper_self (p : Path) : Within p p.deeper :=
  ⟨Nat.le_succ _, fun _ => id, Nat.le_refl _⟩

theorem deeper (h : Within q p) : Within q.deeper p.deeper :=
  ⟨Nat.succ_le_succ h.depth, h.opened, h.hookDepth⟩

theorem opening (h : Within q p) (i : Identity) : Within (q.opening i) (p.opening i) :=
  ⟨h.depth, fun j hj => List.mem_cons.2 ((List.mem_cons.1 hj).imp_right (h.opened j)), h.hookDepth⟩

theorem hooked (h : Within q p) : Within q.hooked p.hooked :=
  ⟨h.depth, h.opened, Nat.succ_le_succ h.hookDepth⟩

end Path.Within

namespace Lookup

open Encoder

variable {l : Lookup} {o' : Options} {recur recur' : Path → Value → TextM Unit Bytes} {p q : Path}
  {v w : Value} {b : Bytes}

section

variable (h : l.options.AgreeBut [.appendNewline] o') (hi : l.options.indent2 = false)
  (ih : ∀ p q v b, q.Within p → Gives (recur p v) b → Gives (recur' q v) b) (hq : q.Within p)
include h hi ih hq

theorem gives_arrayText_within {vs : List Value} (hb : Gives (l.encoder.arrayText recur p vs) b) :
    Gives ((l.under o').encoder.arrayText recur' q vs) b := by
  have hlayout : o'.bracketed = l.options.bracketed :=
    Options.bracketed_congr (h .indent2 (by decide))
  obtain ⟨hd, B, hB, rfl⟩ := exists_of_gives_arrayText hb
  have harray : Gives ((l.under o').encoder.arrayText recur' q (vs.map id)) _ :=
    gives_arrayText (Nat.lt_of_le_of_lt hq.depth hd) fun v hv => ih _ _ _ _ hq.deeper (hB v hv)
  rw [List.map_id] at harray
  rw [options_encoder, Options.bracketed_eq hi p.depth q.depth, ← hlayout]
  exact harray

theorem gives_objectText_within {ms : Members} (hb : Gives (l.encoder.objectText recur p ms) b) :
    Gives ((l.under o').encoder.objectText recur' q ms) b := by
  have hlayout : o'.bracketed = l.options.bracketed :=
    Options.bracketed_congr (h .indent2 (by decide))
  have hmember : o'.memberBytes = l.options.memberBytes :=
    Options.memberBytes_congr (h .indent2 (by decide)) (h .asciiOnly (by decide))
  have hkeys : KeyText.ofValue l.graph o' = KeyText.ofValue l.graph l.options :=
    h.ofValue (by decide) l.graph
  obtain ⟨hd, K, B, hK, hB, rfl⟩ := exists_of_gives_objectText hb
  have hK' : ∀ m ∈ ms, KeyText.ofValue (l.under o').encoder.graph (l.under o').encoder.options m.1 =
      .ok (K m) := fun m hm => (congrFun hkeys m.1).trans (hK m hm)
  have hobject : Gives ((l.under o').encoder.objectText recur' q (ms.map fun m => (m.1, m.2))) _ :=
    gives_objectText (Nat.lt_of_le_of_lt hq.depth hd) hK' fun m hm =>
      ih _ _ _ _ hq.deeper (hB m hm)
  rw [List.map_id'] at hobject
  rw [options_encoder, Options.bracketed_eq hi p.depth q.depth, ← hlayout, ← hmember,
    ← Options.arrange_congr (h .sortKeys (by decide))]
  exact hobject

omit h hi in
theorem gives_replacedText_within (hb : Gives (l.encoder.replacedText recur p v) b) :
    Gives ((l.under o').encoder.replacedText recur' q v) b := by
  rw [replacedText] at hb ⊢
  simp only [encoder, under] at hb ⊢
  cases hf : l.hook with
  | none =>
    rw [hf] at hb
    exact hb
  | some f =>
    simp only [hf, Option.map_some, TextM.ask_ofFunction_bind] at hb ⊢
    split at hb
    · simp at hb
    · next hlt =>
      rw [if_neg (Nat.not_le.2 (Nat.lt_of_le_of_lt hq.hookDepth (Nat.lt_of_not_le hlt)))]
      cases hw : f v with
      | none => simp [hw] at hb
      | some w =>
        rw [hw] at hb
        exact ih _ _ _ _ hq.hooked hb

theorem gives_formText_within (hb : Gives (l.encoder.formText recur p v) b) :
    Gives ((l.under o').encoder.formText recur' q v) b := by
  rw [formText] at hb ⊢
  rw [form_under (h.lookUpAlike (by decide) (by decide))]
  cases hf : l.encoder.form v with
  | leaf =>
    have htext : v.leafText o' = v.leafText l.options :=
      h.leafText (by decide) (by decide) fun _ _ => h .asciiOnly (by decide)
    rw [hf] at hb
    exact (congrArg (fun t => Gives (TextM.lift t) b) htext).mpr hb
  | items vs =>
    rw [hf] at hb
    exact gives_arrayText_within h hi ih hq hb
  | members ms =>
    rw [hf] at hb
    exact gives_objectText_within h hi ih hq hb
  | level w =>
    simp only [hf, deeperText] at hb ⊢
    split at hb
    · next hd =>
      rw [if_pos (Nat.lt_of_le_of_lt hq.depth hd)]
      exact ih _ _ _ _ hq.deeper hb
    · simp at hb
  | asked =>
    rw [hf] at hb
    exact gives_replacedText_within ih hq hb

end

/-- **What is written somewhere is written alike where less is open**, where there are no lines; a
newline behind the document is no part of it. -/
theorem gives_text_within (h : l.options.AgreeBut [.appendNewline] o')
    (hi : l.options.indent2 = false) {m n : Nat} (hmn : m ≤ n) (hq : q.Within p)
    (hb : Gives (l.encoder.text m p v) b) : Gives ((l.under o').encoder.text n q v) b := by
  induction m generalizing n p q v b with
  | zero => cases hb ()
  | succ m ih =>
    obtain ⟨n, rfl⟩ : ∃ k, n = k + 1 := ⟨n - 1, by omega⟩
    rw [text_succ, openedText] at hb ⊢
    have inside {p q : Path} (hq : q.Within p)
        (hb : Gives (l.encoder.formText (l.encoder.text m) p v) b) :
        Gives ((l.under o').encoder.formText ((l.under o').encoder.text n) q v) b :=
      gives_formText_within h hi (fun _ _ _ _ => ih (Nat.le_of_succ_le_succ hmn)) hq hb
    cases hv : v.handle? with
    | none =>
      rw [hv] at hb
      exact inside hq hb
    | some i =>
      simp only [hv, openingText] at hb ⊢
      split at hb
      · simp at hb
      · next hclosed =>
        rw [if_neg fun hmem => hclosed (hq.opened i hmem)]
        exact inside (hq.opening i) hb

end Lookup

/-! ## One part of a container -/

/-- A list with its own items beside it, but for one, which has `a` beside it and `a'` for itself. One
part may stand in several places, so a part alone does not tell which of them is meant. -/
def exchanged {α : Type} (before : List α) (a' a : α) (after : List α) : List (α × α) :=
  before.map (fun x => (x, x)) ++ (a', a) :: after.map fun x => (x, x)

theorem map_fst_exchanged {α : Type} (before : List α) (a' a : α) (after : List α) :
    (exchanged before a' a after).map Prod.fst = before ++ a' :: after := by
  simp [exchanged, Function.comp_def]

theorem map_snd_exchanged {α : Type} (before : List α) (a' a : α) (after : List α) :
    (exchanged before a' a after).map Prod.snd = before ++ a :: after := by
  simp [exchanged, Function.comp_def]

theorem forall_mem_exchanged {α : Type} {P : α → α → Prop} {before after : List α} {a' a : α}
    (h : ∀ x ∈ before ++ a :: after, P x x) (ha : P a' a) :
    ∀ x ∈ exchanged before a' a after, P x.1 x.2 := by
  obtain ⟨hbefore, hrest⟩ := List.forall_mem_append.1 h
  obtain ⟨-, hafter⟩ := List.forall_mem_cons.1 hrest
  exact List.forall_mem_append.2 ⟨List.forall_mem_map.2 hbefore,
    List.forall_mem_cons.2 ⟨ha, List.forall_mem_map.2 hafter⟩⟩

namespace Encoder

variable {e : Encoder Unit} {recur : Path → Value → TextM Unit Bytes} {p : Path} {v : Value}
  {b : Bytes}

/-- An item in an array may be replaced by any that is written alike. -/
theorem exists_gives_item {before after : List Value}
    (h : Gives (e.arrayText recur p (before ++ v :: after)) b) :
    ∃ c, Gives (recur p.deeper v) c ∧ ∀ v', Gives (recur p.deeper v') c →
      Gives (e.arrayText recur p (before ++ v' :: after)) b := by
  obtain ⟨hd, B, hB, rfl⟩ := exists_of_gives_arrayText h
  refine ⟨B v, hB v (List.mem_append_right _ List.mem_cons_self), fun v' hv' => ?_⟩
  have harray : Gives (e.arrayText recur p ((exchanged before v' v after).map Prod.fst)) _ :=
    gives_arrayText (B := fun x => B x.2) hd
      (forall_mem_exchanged (P := fun w w' => Gives (recur p.deeper w) (B w')) hB hv')
  rw [map_fst_exchanged] at harray
  rw [← map_snd_exchanged before v' v after, List.map_map]
  exact harray

/-- What stands under a key may be replaced by anything that is written alike. -/
theorem exists_gives_member {before after : Members} {key : Value}
    (h : Gives (e.objectText recur p (before ++ (key, v) :: after)) b) :
    ∃ c, Gives (recur p.deeper v) c ∧ ∀ v', Gives (recur p.deeper v') c →
      Gives (e.objectText recur p (before ++ (key, v') :: after)) b := by
  obtain ⟨hd, K, B, hK, hB, rfl⟩ := exists_of_gives_objectText h
  have hmem : (key, v) ∈ before ++ (key, v) :: after :=
    List.mem_append_right _ List.mem_cons_self
  refine ⟨B (key, v), hB _ hmem, fun v' hv' => ?_⟩
  have hkeys : ∀ x ∈ exchanged before (key, v') (key, v) after,
      KeyText.ofValue e.graph e.options x.1.1 = .ok (K x.2) :=
    forall_mem_exchanged (P := fun m m' => KeyText.ofValue e.graph e.options m.1 = .ok (K m')) hK
      (hK _ hmem)
  have hvalues : ∀ x ∈ exchanged before (key, v') (key, v) after,
      Gives (recur p.deeper x.1.2) (B x.2) :=
    forall_mem_exchanged (P := fun m m' => Gives (recur p.deeper m.2) (B m')) hB hv'
  have hobject : Gives (e.objectText recur p
      ((exchanged before (key, v') (key, v) after).map Prod.fst)) _ :=
    gives_objectText hd hkeys hvalues
  rw [map_fst_exchanged] at hobject
  rw [← map_snd_exchanged before (key, v') (key, v) after, List.map_map]
  exact hobject

/-- **What is in a place of a value is written on the way, further down; and a fragment of the same
bytes may stand there.** -/
theorem exists_gives_fill {w : Value} (c : Value.Context) {n : Nat}
    (h : Gives (e.text n p (c.fill w)) b) : ∃ f m q, m ≤ n ∧ p.Within q ∧
      Gives (e.text m q w) f ∧ Gives (e.text n p (c.fill (.fragment f))) b := by
  induction c generalizing n p b with
  | here =>
    cases n with
    | zero => cases h ()
    | succ n => exact ⟨b, n + 1, p, Nat.le_refl _, .refl p, h, gives_pure b⟩
  | item before c after ih =>
    cases n with
    | zero => cases h ()
    | succ n =>
      obtain ⟨b', hb', hput⟩ := exists_gives_item h
      obtain ⟨f, m, q, hm, hq, hf, hfill⟩ := ih hb'
      exact ⟨f, m, q, Nat.le_succ_of_le hm, (Path.Within.deeper_self p).trans hq, hf, hput _ hfill⟩
  | member before key c after ih =>
    cases n with
    | zero => cases h ()
    | succ n =>
      obtain ⟨b', hb', hput⟩ := exists_gives_member h
      obtain ⟨f, m, q, hm, hq, hf, hfill⟩ := ih hb'
      exact ⟨f, m, q, Nat.le_succ_of_le hm, (Path.Within.deeper_self p).trans hq, hf, hput _ hfill⟩

end Encoder

namespace Codec

variable {mask : UInt32} {o : Options} {g : Graph} {hook : Option (Value → Option Value)} {b : Bytes}

/-- **A value that is written without lines has each part of it written in the same bytes wherever it
stands: the part alone is written too, and with what it is written as for a fragment in its place, the
document is the same.** -/
theorem encodeWith_fragment (hm : Options.ofMask? mask = .ok o) (hi : o.indent2 = false)
    (c : Value.Context) (w : Value)
    (h : (encodeWith mask g (hook.map Hook.ofFunction) () (c.fill w)).1 = .ok b) :
    ∃ f, (encodeWith (mask &&& ~~~Flag.appendNewline.bit) g (hook.map Hook.ofFunction) () w).1 =
        .ok f ∧
      (encodeWith mask g (hook.map Hook.ofFunction) () (c.fill (.fragment f))).1 = .ok b := by
  obtain ⟨o', hm', hhas⟩ := Options.ofMask?_and_not hm [.appendNewline]
  rw [Flag.bits_singleton] at hm'
  have hagree : o.AgreeBut [.appendNewline] o' := fun flag hflag => by
    rw [hhas, decide_eq_false hflag, Bool.not_false, Bool.and_true]
  have hn : o'.appendNewline = false := (hhas .appendNewline).trans (by simp)
  obtain ⟨d, hd, rfl⟩ := (encodeWith_eq_ok_iff hm).1 h
  obtain ⟨f, m, q, hle, hq, hf, hfill⟩ := Encoder.exists_gives_fill c hd
  have hpart : Gives (((Lookup.mk o g hook).under o').encoder.text Encoder.budget {} w) f :=
    Lookup.gives_text_within hagree hi hle hq hf
  refine ⟨f, (encodeWith_eq_ok_iff hm').2 ⟨f, hpart, ?_⟩, (encodeWith_eq_ok_iff hm).2 ⟨d, hfill, rfl⟩⟩
  rw [Encoder.document, hn]
  rfl

/-- An application value under a key, for which the hook has an answer. -/
theorem encodeWith_fragment_of_answer :
    let hook : Value → Option Value := fun _ => some (.array [.bool true, .null])
    let c := Value.Context.item [.null] (.member [] (.str "k") .here []) []
    ∃ f, (encodeWith (0x400 &&& ~~~Flag.appendNewline.bit) .empty (some (Hook.ofFunction hook)) ()
        (.foreign ⟨0⟩ "decimal")).1 = .ok f ∧
      (encodeWith 0x400 .empty (some (Hook.ofFunction hook)) () (c.fill (.fragment f))).1 =
        .ok (Utf8.encode "[null,\x7b\"k\":[true,null]\x7d]\n") := by
  intro hook c
  refine @encodeWith_fragment 0x400 { appendNewline := true } .empty (some hook) _ rfl rfl c _ ?_
  rw [encodeWith_eq (o := { appendNewline := true }) rfl]
  rfl

end Codec

end JsonCodec
