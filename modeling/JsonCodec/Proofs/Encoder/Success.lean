/-
When a value has a text, and which one: the texts of the values inside it, in order.

What gives a text whatever the state of the hook, and leaves that state alone, may be put together
(`Gives`): that of a container comes of the texts of its parts (`gives_arrayText`,
`gives_objectText`), and one part that is refused is enough for it to be refused (`Refuses`). A hook
that is a function keeps no state; then there is no other way to a text
(`exists_of_gives_arrayText`, `exists_of_gives_objectText`).
-/
import Mathlib.Tactic.Choose
import JsonCodec.Proofs.Encoder.Rendering

namespace JsonCodec

variable {σ α β : Type}

/-- `t` gives `a`, in every state of the hook. -/
def Gives (t : TextM σ α) (a : α) : Prop := ∀ h, t h = .ok a h

/-- `t` is refused, in every state of the hook. -/
def Refuses (t : TextM σ α) (e : EncodeError) : Prop := ∀ h, t h = .error (.refused e) h

section States

variable {t : TextM σ α} {f : α → TextM σ β} {a : α} {c : β} {e : EncodeError}

theorem gives_pure (a : α) : Gives (pure a : TextM σ α) a := fun _ => rfl

theorem Gives.trans (ht : Gives t a) (hf : Gives (f a) c) : Gives (t >>= f) c := by
  intro h
  simp only [Bind.bind, EStateM.bind, ht h]
  exact hf h

theorem refuses_refuse (e : EncodeError) : Refuses (TextM.refuse e : TextM σ α) e := fun _ => rfl

theorem Refuses.bind (ht : Refuses t e) (f : α → TextM σ β) : Refuses (t >>= f) e := by
  intro h
  simp only [Bind.bind, EStateM.bind, ht h]

theorem Gives.refuses (ht : Gives t a) (hf : Refuses (f a) e) : Refuses (t >>= f) e := by
  intro h
  simp only [Bind.bind, EStateM.bind, ht h]
  exact hf h

end States

namespace Gives

variable {t : TextM Unit α} {f : α → TextM Unit β} {a b : α}

theorem unique (ha : Gives t a) (hb : Gives t b) : a = b := by
  have h := (ha ()).symm.trans (hb ())
  cases h
  rfl

@[simp] theorem pure_iff : Gives (pure a : TextM Unit α) b ↔ b = a :=
  ⟨fun h => unique h (gives_pure a), fun h => h ▸ gives_pure a⟩

@[simp] theorem bind_iff {c : β} : Gives (t >>= f) c ↔ ∃ a, Gives t a ∧ Gives (f a) c := by
  constructor
  · intro h
    have h := h ()
    simp only [Bind.bind, EStateM.bind] at h
    cases ht : t () with
    | ok a s =>
      rw [ht] at h
      exact ⟨a, fun _ => ht, fun _ => h⟩
    | error stop s =>
      rw [ht] at h
      cases h
  · intro ⟨a, ht, hf⟩
    exact ht.trans hf

@[simp] theorem refuse_iff {e : EncodeError} : Gives (TextM.refuse e : TextM Unit α) a ↔ False :=
  iff_of_false (fun h => nomatch h ()) id

@[simp] theorem lift_iff {x : Except EncodeError α} :
    Gives (TextM.lift x : TextM Unit α) a ↔ x = .ok a := by
  cases x with
  | ok b => simp [TextM.lift, eq_comm]
  | error e => simp [TextM.lift]

@[simp] theorem ask_iff {f : Value → Option Value} {v : Value} {answer : Option Value} :
    Gives (TextM.ask (Hook.ofFunction f) v : TextM Unit _) answer ↔ answer = f v :=
  pure_iff

end Gives

/-! ## The order of keys -/

section Bytewise

variable {κ : Type} (key : κ → Bytes)

theorem bytewise_trans (a b c : κ) (hab : decide (key a ≤ key b) = true)
    (hbc : decide (key b ≤ key c) = true) : decide (key a ≤ key c) = true := by
  simp only [decide_eq_true_eq] at *
  exact List.le_trans hab hbc

theorem bytewise_total (a b : κ) :
    (decide (key a ≤ key b) || decide (key b ≤ key a)) = true := by
  simpa using List.le_total (key a) (key b)

/-- What is put in the order of keys is in their order. -/
theorem pairwise_bytewise (xs : List κ) :
    (xs.mergeSort fun a b => key a ≤ key b).Pairwise fun a b => decide (key a ≤ key b) = true :=
  List.pairwise_mergeSort (bytewise_trans key) (bytewise_total key) xs

end Bytewise

/-! ## Parts in order -/

/-- Parts in order, each behind its lead. -/
def joined (lead : Bool → Bytes) : (first : Bool) → List Bytes → Bytes
  | _, [] => []
  | first, b :: bs => lead first ++ b ++ joined lead false bs

namespace Options

open Ascii

/-- A container of the level `depth` with its parts. -/
def bracketed (o : Options) (depth : Nat) (left right : UInt8) (parts : List Bytes) : Bytes :=
  if parts.isEmpty then [left, right]
  else left :: (joined (o.leadAt (depth + 1)) true parts ++ o.breakAt depth ++ [right])

/-- A member: the key, and what its value is written as. -/
def memberBytes (o : Options) (m : KeyText × Bytes) : Bytes := m.1.quoted o ++ o.afterKey ++ m.2

/-- Members in the order in which they are written. -/
def arrange {β : Type} (o : Options) (ms : List (KeyText × β)) : List (KeyText × β) :=
  if o.sortKeys then ms.mergeSort fun a b => a.1.bytes ≤ b.1.bytes else ms

variable {β γ : Type} (o : Options)

/-- The order is a matter of the keys. -/
theorem arrange_map (f : β → γ) (ms : List (KeyText × β)) :
    o.arrange (ms.map fun m => (m.1, f m.2)) = (o.arrange ms).map fun m => (m.1, f m.2) := by
  unfold arrange
  split
  · refine (List.map_mergeSort (f := fun m : KeyText × β => (m.1, f m.2)) ?_).symm
    exact fun _ _ _ _ => rfl
  · rfl

/-- Keys and values of an index in order are the keys and indices in order, and their values. -/
theorem arrange_map_map {ι : Type} {K : ι → KeyText} (f : ι → β) (xs : List ι) :
    o.arrange (xs.map fun x => (K x, f x)) =
      (o.arrange (xs.map fun x => (K x, x))).map fun k => (k.1, f k.2) := by
  rw [← arrange_map, List.map_map]
  rfl

@[simp] theorem mem_arrange {ms : List (KeyText × β)} {m : KeyText × β} :
    m ∈ o.arrange ms ↔ m ∈ ms := by
  unfold arrange
  split
  · exact List.mem_mergeSort
  · rfl

theorem isEmpty_arrange (ms : List (KeyText × β)) : (o.arrange ms).isEmpty = ms.isEmpty := by
  rw [Bool.eq_iff_iff, List.isEmpty_iff, List.isEmpty_iff]
  simp only [List.eq_nil_iff_forall_not_mem, mem_arrange]

end Options

namespace KeyText

variable {g : Graph} {o : Options}

theorem ofMembers_cons (key v : Value) (ms : Members) :
    ofMembers g o ((key, v) :: ms) = do
      let k ← ofValue g o key
      let ks ← ofMembers g o ms
      return (k, v) :: ks := by
  simp only [ofMembers, List.mapM_cons, bind_assoc, pure_bind]

variable {ι : Type} {xs : List ι} {key val : ι → Value} {K : ι → KeyText}

theorem ofMembers_eq_ok (hK : ∀ x ∈ xs, ofValue g o (key x) = .ok (K x)) :
    ofMembers g o (xs.map fun x => (key x, val x)) = .ok (xs.map fun x => (K x, val x)) := by
  induction xs with
  | nil => rfl
  | cons x xs ih =>
    obtain ⟨hx, hxs⟩ := List.forall_mem_cons.1 hK
    rw [List.map_cons, ofMembers_cons, hx, ih hxs]
    rfl

/-- Members whose keys are put into text have a text for each key, and are otherwise as they were. -/
theorem exists_map_of_ofMembers {ms : Members} {ks : List (KeyText × Value)}
    (h : ofMembers g o ms = .ok ks) : ∃ K : Value → KeyText,
      (∀ m ∈ ms, ofValue g o m.1 = .ok (K m.1)) ∧ ks = ms.map fun m => (K m.1, m.2) := by
  obtain ⟨K, hK⟩ : ∃ K : Value → KeyText, ∀ key k, ofValue g o key = .ok k → K key = k := by
    refine ⟨fun key => (ofValue g o key).toOption.getD (own ""), fun key k hk => ?_⟩
    simp only [hk]
    rfl
  refine ⟨K, ?_⟩
  induction ms generalizing ks with
  | nil =>
    cases h
    exact ⟨List.forall_mem_nil _, rfl⟩
  | cons m ms ih =>
    obtain ⟨key, v⟩ := m
    rw [ofMembers_cons] at h
    cases hk : ofValue g o key with
    | error e =>
      rw [hk] at h
      cases h
    | ok k =>
      cases hrest : ofMembers g o ms with
      | error e =>
        rw [hk, hrest] at h
        cases h
      | ok rest =>
        rw [hk, hrest] at h
        cases h
        obtain ⟨hall, rfl⟩ := ih hrest
        refine ⟨List.forall_mem_cons.2 ⟨?_, hall⟩, ?_⟩
        · rw [hK key k hk]
          exact hk
        · rw [List.map_cons, hK key k hk]

theorem exists_of_ofMembers {ms : Members} {ks : List (KeyText × Value)}
    (h : ofMembers g o ms = .ok ks) : ∀ m ∈ ms, ∃ k, ofValue g o m.1 = .ok k ∧ (k, m.2) ∈ ks := by
  obtain ⟨K, hK, rfl⟩ := exists_map_of_ofMembers h
  exact fun m hm => ⟨K m.1, hK m hm, List.mem_map_of_mem hm⟩

theorem sorted_eq_ok (ho : o.sortKeys = true) (hK : ∀ x ∈ xs, ofValue g o (key x) = .ok (K x)) :
    sorted g o (xs.map fun x => (key x, val x)) = .ok (o.arrange (xs.map fun x => (K x, val x))) := by
  rw [sorted, ofMembers_eq_ok hK, Options.arrange, if_pos ho]
  rfl

theorem exists_of_sorted {ms : Members} {ks : List (KeyText × Value)}
    (h : sorted g o ms = .ok ks) : ∀ m ∈ ms, ∃ k, ofValue g o m.1 = .ok k ∧ (k, m.2) ∈ ks := by
  rw [sorted] at h
  cases hks : ofMembers g o ms with
  | error e =>
    rw [hks] at h
    cases h
  | ok ks' =>
    rw [hks] at h
    cases h
    intro m hm
    obtain ⟨k, hk, hmem⟩ := exists_of_ofMembers hks m hm
    exact ⟨k, hk, List.mem_mergeSort.2 hmem⟩

end KeyText

namespace Encoder

open Ascii Gives

variable {ι : Type} {e : Encoder σ} {recur : Path → Value → TextM σ Bytes} {p : Path}
  {xs : List ι} {key val : ι → Value} {K : ι → KeyText} {B : ι → Bytes}

/-! ## Parts -/

theorem gives_partsText {t : ι → TextM σ Bytes} (lead : Bool → Bytes) (first : Bool)
    (h : ∀ x ∈ xs, Gives (t x) (B x)) :
    Gives (partsText lead first (xs.map t)) (joined lead first (xs.map B)) := by
  induction xs generalizing first with
  | nil => exact gives_pure []
  | cons x xs ih =>
    obtain ⟨hx, hxs⟩ := List.forall_mem_cons.1 h
    exact hx.trans ((ih false hxs).trans (gives_pure _))

/-- The first part that is refused is the end. -/
theorem refuses_partsText {parts : List (TextM σ Bytes)} {x : EncodeError} (lead : Bool → Bytes)
    (first : Bool) (h : ∀ t ∈ parts, (∃ b, Gives t b) ∨ Refuses t x) (hx : ∃ t ∈ parts, Refuses t x) :
    Refuses (partsText lead first parts) x := by
  induction parts generalizing first with
  | nil =>
    obtain ⟨t, ht, -⟩ := hx
    cases ht
  | cons t parts ih =>
    obtain ⟨ht, hparts⟩ := List.forall_mem_cons.1 h
    obtain ⟨u, hu, hr⟩ := hx
    rcases ht with ⟨b, hb⟩ | ht
    · rcases List.mem_cons.1 hu with rfl | hu
      · exact hr.bind _
      · exact hb.refuses ((ih false hparts ⟨u, hu, hr⟩).bind _)
    · exact ht.bind _

/-- The texts of members whose keys have texts. -/
theorem memberTexts_bind (t : Value → TextM σ Bytes) (lead : Bool → Bytes)
    (hK : ∀ x ∈ xs, KeyText.ofValue e.graph e.options (key x) = .ok (K x)) :
    e.memberTexts t (xs.map fun x => (key x, val x)) >>= partsText lead true =
      partsText lead true ((e.options.arrange (xs.map fun x => (K x, x))).map fun k =>
        e.memberText k.1 (t (val k.2))) := by
  rw [memberTexts]
  split
  · next ho =>
    -- The order is found before the values are looked at: `x` itself stands for its value.
    rw [KeyText.sorted_eq_ok ho hK, e.options.arrange_map_map val, TextM.lift, pure_bind, pure_bind,
      List.map_map]
    rfl
  · next ho =>
    rw [pure_bind, Options.arrange, if_neg ho, List.map_map, List.map_map]
    refine congrArg _ (List.map_congr_left fun x hx => ?_)
    simp only [Function.comp_apply, hK x hx, TextM.lift, pure_bind]

theorem containerText_of_lt {left right : UInt8} {isEmpty : Bool}
    {parts : TextM σ (List (TextM σ Bytes))} (hd : p.depth < Limits.maxDepth) :
    e.containerText p left right isEmpty parts =
      if isEmpty then pure [left, right]
      else (parts >>= partsText (e.options.leadAt (p.depth + 1)) true) >>= fun inside =>
        pure (left :: (inside ++ e.options.breakAt p.depth ++ [right])) := by
  rw [containerText, if_pos hd]
  split
  · rfl
  · rw [bind_assoc]

theorem containerText_of_ge {left right : UInt8} {isEmpty : Bool}
    {parts : TextM σ (List (TextM σ Bytes))} (hd : Limits.maxDepth ≤ p.depth) :
    e.containerText p left right isEmpty parts = TextM.refuse .recursionLimit := by
  rw [containerText, if_neg (Nat.not_lt.2 hd)]

theorem refuses_containerText {left right : UInt8} {isEmpty : Bool}
    {parts : TextM σ (List (TextM σ Bytes))} {x : EncodeError} (hd : p.depth < Limits.maxDepth)
    (he : isEmpty = false)
    (h : Refuses (parts >>= partsText (e.options.leadAt (p.depth + 1)) true) x) :
    Refuses (e.containerText p left right isEmpty parts) x := by
  rw [containerText_of_lt hd, he, if_neg Bool.false_ne_true]
  exact h.bind _

/-! ## Containers -/

/-- **An array is written from the texts of its items.** -/
theorem gives_arrayText (hd : p.depth < Limits.maxDepth)
    (h : ∀ x ∈ xs, Gives (recur p.deeper (val x)) (B x)) :
    Gives (e.arrayText recur p (xs.map val))
      (e.options.bracketed p.depth bracketOpen bracketClose (xs.map B)) := by
  rw [arrayText, containerText_of_lt hd, Options.bracketed, List.isEmpty_map, List.isEmpty_map]
  split
  · exact gives_pure _
  · rw [pure_bind, List.map_map]
    exact (gives_partsText _ true h).trans (gives_pure _)

/-- **An object is written from the texts of its keys and values.** -/
theorem gives_objectText (hd : p.depth < Limits.maxDepth)
    (hK : ∀ x ∈ xs, KeyText.ofValue e.graph e.options (key x) = .ok (K x))
    (h : ∀ x ∈ xs, Gives (recur p.deeper (val x)) (B x)) :
    Gives (e.objectText recur p (xs.map fun x => (key x, val x)))
      (e.options.bracketed p.depth braceOpen braceClose
        ((e.options.arrange (xs.map fun x => (K x, B x))).map e.options.memberBytes)) := by
  rw [objectText, containerText_of_lt hd, Options.bracketed, List.isEmpty_map, List.isEmpty_map,
    Options.isEmpty_arrange, List.isEmpty_map, memberTexts_bind _ _ hK]
  split
  · exact gives_pure _
  · rw [e.options.arrange_map_map B, List.map_map]
    refine (gives_partsText _ true fun k hk => ?_).trans (gives_pure _)
    obtain ⟨x, hx, rfl⟩ := List.mem_map.1 ((e.options.mem_arrange).1 hk)
    exact (h x hx).trans (gives_pure _)

/-- An array is refused where one of its items is. -/
theorem refuses_arrayText {x : EncodeError} (hd : p.depth < Limits.maxDepth)
    (h : ∀ y ∈ xs, (∃ b, Gives (recur p.deeper (val y)) b) ∨ Refuses (recur p.deeper (val y)) x)
    (hx : ∃ y ∈ xs, Refuses (recur p.deeper (val y)) x) :
    Refuses (e.arrayText recur p (xs.map val)) x := by
  obtain ⟨y, hy, hr⟩ := hx
  refine refuses_containerText hd ?_ ?_
  · rw [List.isEmpty_map]
    exact List.isEmpty_eq_false_iff_exists_mem.2 ⟨y, hy⟩
  · rw [pure_bind, List.map_map]
    refine refuses_partsText _ true ?_ ⟨_, List.mem_map_of_mem hy, hr⟩
    exact List.forall_mem_map.2 h

/-- An object is refused where one of its values is. -/
theorem refuses_objectText {x : EncodeError} (hd : p.depth < Limits.maxDepth)
    (hK : ∀ x ∈ xs, KeyText.ofValue e.graph e.options (key x) = .ok (K x))
    (h : ∀ y ∈ xs, (∃ b, Gives (recur p.deeper (val y)) b) ∨ Refuses (recur p.deeper (val y)) x)
    (hx : ∃ y ∈ xs, Refuses (recur p.deeper (val y)) x) :
    Refuses (e.objectText recur p (xs.map fun x => (key x, val x))) x := by
  obtain ⟨y, hy, hr⟩ := hx
  refine refuses_containerText hd ?_ ?_
  · rw [List.isEmpty_map]
    exact List.isEmpty_eq_false_iff_exists_mem.2 ⟨y, hy⟩
  · have hmem : (K y, y) ∈ e.options.arrange (xs.map fun x => (K x, x)) :=
      (e.options.mem_arrange).2 (List.mem_map_of_mem hy)
    rw [memberTexts_bind _ _ hK]
    refine refuses_partsText _ true (List.forall_mem_map.2 fun k hk => ?_)
      ⟨_, List.mem_map_of_mem hmem, hr.bind _⟩
    obtain ⟨z, hz, rfl⟩ := List.mem_map.1 ((e.options.mem_arrange).1 hk)
    rcases h z hz with ⟨b, hb⟩ | hz
    · exact .inl ⟨_, hb.trans (gives_pure _)⟩
    · exact .inr (hz.bind _)

/-! ## The only way, where there is no state -/

variable {e : Encoder Unit} {recur : Path → Value → TextM Unit Bytes} {b : Bytes}

/-- Each part gives something. -/
theorem exists_of_gives_partsText {lead : Bool → Bytes} {first : Bool}
    {parts : List (TextM Unit Bytes)} (h : Gives (partsText lead first parts) b) :
    ∀ t ∈ parts, ∃ c, Gives t c := by
  induction parts generalizing first b with
  | nil => exact List.forall_mem_nil _
  | cons t parts ih =>
    obtain ⟨c, hc, h⟩ := bind_iff.1 h
    obtain ⟨bs, hbs, -⟩ := bind_iff.1 h
    exact List.forall_mem_cons.2 ⟨⟨c, hc⟩, ih hbs⟩

theorem exists_of_gives_containerText {left right : UInt8} {isEmpty : Bool}
    {parts : TextM Unit (List (TextM Unit Bytes))}
    (h : Gives (e.containerText p left right isEmpty parts) b) : p.depth < Limits.maxDepth ∧
      (isEmpty = false →
        ∃ inside, Gives (parts >>= partsText (e.options.leadAt (p.depth + 1)) true) inside) := by
  by_cases hd : p.depth < Limits.maxDepth
  · refine ⟨hd, fun he => ?_⟩
    rw [containerText_of_lt hd, he, if_neg Bool.false_ne_true] at h
    obtain ⟨inside, hinside, -⟩ := bind_iff.1 h
    exact ⟨inside, hinside⟩
  · rw [containerText_of_ge (Nat.le_of_not_lt hd), refuse_iff] at h
    exact h.elim

theorem exists_of_gives_arrayText {vs : List Value} (h : Gives (e.arrayText recur p vs) b) :
    p.depth < Limits.maxDepth ∧ ∃ B : Value → Bytes, (∀ v ∈ vs, Gives (recur p.deeper v) (B v)) ∧
      b = e.options.bracketed p.depth bracketOpen bracketClose (vs.map B) := by
  obtain ⟨hd, hinside⟩ := exists_of_gives_containerText h
  have hall : ∀ v ∈ vs, ∃ c, Gives (recur p.deeper v) c := by
    cases vs with
    | nil => exact List.forall_mem_nil _
    | cons v vs =>
      obtain ⟨inside, hinside⟩ := hinside rfl
      rw [pure_bind] at hinside
      exact fun v hv => exists_of_gives_partsText hinside _ (List.mem_map_of_mem hv)
  choose! B hB using hall
  refine ⟨hd, B, hB, h.unique ?_⟩
  have harray : Gives (e.arrayText recur p (vs.map id)) _ := gives_arrayText hd hB
  rwa [List.map_id] at harray

theorem exists_of_gives_memberText {k : KeyText} {t : TextM Unit Bytes}
    (h : Gives (e.memberText k t) b) : ∃ c, Gives t c := by
  obtain ⟨c, hc, -⟩ := bind_iff.1 h
  exact ⟨c, hc⟩

theorem exists_of_gives_memberTexts {t : Value → TextM Unit Bytes} {lead : Bool → Bytes}
    {ms : Members} (h : Gives (e.memberTexts t ms >>= partsText lead true) b) :
    ∀ m ∈ ms, (∃ k, KeyText.ofValue e.graph e.options m.1 = .ok k) ∧ ∃ c, Gives (t m.2) c := by
  rw [memberTexts] at h
  split at h
  · next ho =>
    obtain ⟨parts, hparts, h⟩ := bind_iff.1 h
    obtain ⟨ks, hks, hparts⟩ := bind_iff.1 hparts
    cases pure_iff.1 hparts
    intro m hm
    obtain ⟨k, hk, hmem⟩ := KeyText.exists_of_sorted (lift_iff.1 hks) m hm
    obtain ⟨c, hc⟩ := exists_of_gives_partsText h _ (List.mem_map_of_mem hmem)
    exact ⟨⟨k, hk⟩, exists_of_gives_memberText hc⟩
  · next ho =>
    rw [pure_bind] at h
    intro m hm
    obtain ⟨c, hc⟩ := exists_of_gives_partsText h _ (List.mem_map_of_mem hm)
    obtain ⟨k, hk, hc⟩ := bind_iff.1 hc
    exact ⟨⟨k, lift_iff.1 hk⟩, exists_of_gives_memberText hc⟩

theorem exists_of_gives_objectText {ms : Members} (h : Gives (e.objectText recur p ms) b) :
    p.depth < Limits.maxDepth ∧ ∃ (K : Value × Value → KeyText) (B : Value × Value → Bytes),
      (∀ m ∈ ms, KeyText.ofValue e.graph e.options m.1 = .ok (K m)) ∧
      (∀ m ∈ ms, Gives (recur p.deeper m.2) (B m)) ∧
      b = e.options.bracketed p.depth braceOpen braceClose
        ((e.options.arrange (ms.map fun m => (K m, B m))).map e.options.memberBytes) := by
  obtain ⟨hd, hinside⟩ := exists_of_gives_containerText h
  have hall : ∀ m ∈ ms, (∃ k, KeyText.ofValue e.graph e.options m.1 = .ok k) ∧
      ∃ c, Gives (recur p.deeper m.2) c := by
    cases ms with
    | nil => exact List.forall_mem_nil _
    | cons m ms =>
      obtain ⟨inside, hinside⟩ := hinside rfl
      exact exists_of_gives_memberTexts hinside
  have : Nonempty KeyText := ⟨.own ""⟩
  choose! hK hB using hall
  choose! K hK using hK
  choose! B hB using hB
  refine ⟨hd, K, B, hK, hB, h.unique ?_⟩
  have hobject : Gives (e.objectText recur p (ms.map fun m => (m.1, m.2))) _ :=
    gives_objectText hd hK hB
  rwa [List.map_id'] at hobject

/-- An array is written just if its items are. -/
theorem exists_gives_arrayText_iff {vs : List Value} : (∃ b, Gives (e.arrayText recur p vs) b) ↔
    p.depth < Limits.maxDepth ∧ ∀ v ∈ vs, ∃ b, Gives (recur p.deeper v) b := by
  constructor
  · rintro ⟨b, h⟩
    obtain ⟨hd, B, hB, -⟩ := exists_of_gives_arrayText h
    exact ⟨hd, fun v hv => ⟨B v, hB v hv⟩⟩
  · rintro ⟨hd, hall⟩
    choose! B hB using hall
    have harray : Gives (e.arrayText recur p (vs.map id)) _ := gives_arrayText hd hB
    rw [List.map_id] at harray
    exact ⟨_, harray⟩

/-- **An object is written just if its keys have texts and its values are written**, in whatever order
its members are. -/
theorem exists_gives_objectText_iff {ms : Members} : (∃ b, Gives (e.objectText recur p ms) b) ↔
    p.depth < Limits.maxDepth ∧ ∀ m ∈ ms,
      (∃ k, KeyText.ofValue e.graph e.options m.1 = .ok k) ∧ ∃ b, Gives (recur p.deeper m.2) b := by
  constructor
  · rintro ⟨b, h⟩
    obtain ⟨hd, K, B, hK, hB, -⟩ := exists_of_gives_objectText h
    exact ⟨hd, fun m hm => ⟨⟨K m, hK m hm⟩, B m, hB m hm⟩⟩
  · rintro ⟨hd, hall⟩
    have : Nonempty KeyText := ⟨.own ""⟩
    choose! hK hB using hall
    choose! K hK using hK
    choose! B hB using hB
    have hobject := gives_objectText hd hK hB
    rw [List.map_id'] at hobject
    exact ⟨_, hobject⟩

variable {xs : List ι} {key val : ι → Value}

/-- What is written of items of an index, and in no other way. -/
theorem gives_arrayText_iff : Gives (e.arrayText recur p (xs.map val)) b ↔
    p.depth < Limits.maxDepth ∧ ∃ B : ι → Bytes, (∀ x ∈ xs, Gives (recur p.deeper (val x)) (B x)) ∧
      b = e.options.bracketed p.depth bracketOpen bracketClose (xs.map B) := by
  constructor
  · intro h
    obtain ⟨hd, B, hB, rfl⟩ := exists_of_gives_arrayText h
    refine ⟨hd, B ∘ val, List.forall_mem_map.1 hB, ?_⟩
    rw [List.map_map]
  · rintro ⟨hd, B, hB, rfl⟩
    exact gives_arrayText hd hB

/-- What is written of members of an index, and in no other way. -/
theorem gives_objectText_iff : Gives (e.objectText recur p (xs.map fun x => (key x, val x))) b ↔
    p.depth < Limits.maxDepth ∧ ∃ (K : ι → KeyText) (B : ι → Bytes),
      (∀ x ∈ xs, KeyText.ofValue e.graph e.options (key x) = .ok (K x)) ∧
      (∀ x ∈ xs, Gives (recur p.deeper (val x)) (B x)) ∧
      b = e.options.bracketed p.depth braceOpen braceClose
        ((e.options.arrange (xs.map fun x => (K x, B x))).map e.options.memberBytes) := by
  constructor
  · intro h
    obtain ⟨hd, K, B, hK, hB, rfl⟩ := exists_of_gives_objectText h
    refine ⟨hd, fun x => K (key x, val x), fun x => B (key x, val x), ?_, ?_, ?_⟩
    · exact List.forall_mem_map.1 hK
    · exact List.forall_mem_map.1 hB
    · rw [List.map_map]
      rfl
  · rintro ⟨hd, K, B, hK, hB, rfl⟩
    exact gives_objectText hd hK hB

end Encoder

end JsonCodec
