/-
Parts that are written in turn, when the hook may keep a state: each finds the hook as those before
it left it (`Runs`). A container is written just if its parts run (`containerText_eq_ok_iff`), and
the first part that fails is where it ends (`exists_of_containerText_eq_error`).
-/
import JsonCodec.Proofs.Encoder.Success

namespace JsonCodec

open Ascii

variable {σ α β : Type}

namespace TextM

variable {t : TextM σ α} {f : α → TextM σ β} {c : β} {x : Stop} {h h' : σ}

theorem bind_eq_ok_iff :
    (t >>= f) h = .ok c h' ↔ ∃ a h₁, t h = .ok a h₁ ∧ f a h₁ = .ok c h' := by
  simp only [Bind.bind, EStateM.bind]
  cases t h <;> simp

theorem bind_eq_error_iff :
    (t >>= f) h = .error x h' ↔
      t h = .error x h' ∨ ∃ a h₁, t h = .ok a h₁ ∧ f a h₁ = .error x h' := by
  simp only [Bind.bind, EStateM.bind]
  cases t h <;> simp

theorem lift_eq_ok_iff {y : Except EncodeError α} {a : α} :
    (lift y : TextM σ α) h = .ok a h' ↔ y = .ok a ∧ h' = h := by
  cases y with
  | ok b => simp [lift, pure, EStateM.pure, eq_comm]
  | error e => exact iff_of_false (fun he => by cases he) fun hy => by cases hy.1

theorem lift_eq_error {y : Except EncodeError α} (he : (lift y : TextM σ α) h = .error x h') :
    ∃ e, y = .error e ∧ x = .refused e := by
  cases y with
  | ok b => cases he
  | error e =>
    cases he
    exact ⟨e, rfl, rfl⟩

theorem ask_eq_ok_iff {hook : Hook σ} {v : Value} {answer : Option Value} :
    (ask hook v : TextM σ _) h = .ok answer h' ↔ (hook v).run h = (answer, h') := by
  have hask : (ask hook v : TextM σ _) h = .ok ((hook v).run h).1 ((hook v).run h).2 := rfl
  rw [hask, EStateM.Result.ok.injEq, Prod.ext_iff]

end TextM

open TextM

/-! ## Parts in turn -/

/-- Parts one after the other: what they give, and the state of the hook behind them. -/
inductive Runs : List (TextM σ Bytes) → σ → List Bytes → σ → Prop
  | nil {h : σ} : Runs [] h [] h
  | cons {t : TextM σ Bytes} {ts : List (TextM σ Bytes)} {b : Bytes} {bs : List Bytes} {h h₁ h' : σ}
    (ht : t h = .ok b h₁) (hts : Runs ts h₁ bs h') : Runs (t :: ts) h (b :: bs) h'

namespace Runs

variable {ι : Type} {xs : List ι} {f : ι → TextM σ Bytes} {ts : List (TextM σ Bytes)}
  {bs cs : List Bytes} {h h₁ h' : σ}

/-- What is given is given by a part behind those that ran before it. -/
theorem exists_of_mem (hruns : Runs (xs.map f) h bs h') {b : Bytes} (hb : b ∈ bs) :
    ∃ done y rest cs h₁ h₂, xs = done ++ y :: rest ∧ Runs (done.map f) h cs h₁ ∧
      f y h₁ = .ok b h₂ := by
  induction xs generalizing h bs with
  | nil =>
    cases hruns
    cases hb
  | cons z xs ih =>
    cases hruns with
    | cons hz hxs =>
      rcases List.mem_cons.1 hb with rfl | hb
      · exact ⟨[], z, xs, [], h, _, rfl, .nil, hz⟩
      · obtain ⟨done, y, rest, cs, k, k', hsplit, hdone, hy⟩ := ih hxs hb
        exact ⟨z :: done, y, rest, _ :: cs, k, k', congrArg _ hsplit, .cons hz hdone, hy⟩

/-- Where all parts run, each does so behind those before it. -/
theorem exists_of_append {done rest : List ι} {y : ι}
    (hruns : Runs ((done ++ y :: rest).map f) h bs h') (hdone : Runs (done.map f) h cs h₁) :
    ∃ b ∈ bs, ∃ h₂, f y h₁ = .ok b h₂ := by
  induction done generalizing h bs cs with
  | nil =>
    cases hdone
    cases hruns with
    | cons hy _ => exact ⟨_, List.mem_cons_self, _, hy⟩
  | cons z done ih =>
    cases hdone with
    | cons hz hdone =>
      cases hruns with
      | cons hz' hrest =>
        rw [hz] at hz'
        cases hz'
        obtain ⟨b, hb, h₂, hy⟩ := ih hrest hdone
        exact ⟨b, List.mem_cons_of_mem _ hb, h₂, hy⟩

theorem eq_nil_iff (hruns : Runs ts h bs h') : bs = [] ↔ ts = [] := by
  cases hruns <;> simp

end Runs

namespace Encoder

variable {e : Encoder σ} {recur : Path → Value → TextM σ Bytes} {p : Path} {v : Value}
  {vs : List Value} {ms : Members} {b : Bytes} {x : Stop} {h h' : σ}

theorem partsText_eq_ok_iff {lead : Bool → Bytes} {first : Bool} {ts : List (TextM σ Bytes)} :
    partsText lead first ts h = .ok b h' ↔ ∃ bs, Runs ts h bs h' ∧ b = joined lead first bs := by
  induction ts generalizing first h b h' with
  | nil =>
    constructor
    · intro he
      cases he
      exact ⟨[], .nil, rfl⟩
    · rintro ⟨bs, hruns, rfl⟩
      cases hruns
      rfl
  | cons t ts ih =>
    simp only [partsText, bind_eq_ok_iff, ih]
    constructor
    · rintro ⟨c, h₁, ht, d, h₂, ⟨bs, hts, rfl⟩, he⟩
      cases he
      exact ⟨c :: bs, .cons ht hts, rfl⟩
    · rintro ⟨bs, hruns, rfl⟩
      cases hruns with
      | cons ht hts => exact ⟨_, _, ht, _, _, ⟨_, hts, rfl⟩, rfl⟩

/-- The first part that fails is where it ends. -/
theorem exists_of_partsText_eq_error {ι : Type} {xs : List ι} {f : ι → TextM σ Bytes}
    {lead : Bool → Bytes} {first : Bool} (he : partsText lead first (xs.map f) h = .error x h') :
    ∃ done y rest bs h₁, xs = done ++ y :: rest ∧ Runs (done.map f) h bs h₁ ∧
      f y h₁ = .error x h' := by
  induction xs generalizing first h with
  | nil => cases he
  | cons z xs ih =>
    simp only [List.map_cons, partsText, bind_eq_error_iff] at he
    rcases he with he | ⟨b, h₁, hz, he | ⟨bs, h₂, hxs, he⟩⟩
    · exact ⟨[], z, xs, [], h, rfl, .nil, he⟩
    · obtain ⟨done, y, rest, bs, k, hsplit, hdone, hy⟩ := ih he
      exact ⟨z :: done, y, rest, b :: bs, k, congrArg _ hsplit, .cons hz hdone, hy⟩
    · cases he

end Encoder

/-! ## Members in turn -/

namespace KeyText

variable {g : Graph} {o : Options} {ms : Members} {ks : List (KeyText × Value)}

theorem exists_of_mem_ofMembers (h : ofMembers g o ms = .ok ks) :
    ∀ k ∈ ks, ∃ m ∈ ms, ofValue g o m.1 = .ok k.1 ∧ m.2 = k.2 := by
  obtain ⟨K, hK, rfl⟩ := exists_map_of_ofMembers h
  exact List.forall_mem_map.2 fun m hm => ⟨m, hm, hK m hm, rfl⟩

theorem exists_of_mem_sorted (h : sorted g o ms = .ok ks) :
    ∀ k ∈ ks, ∃ m ∈ ms, ofValue g o m.1 = .ok k.1 ∧ m.2 = k.2 := by
  rw [sorted] at h
  cases hks : ofMembers g o ms with
  | error y =>
    rw [hks] at h
    cases h
  | ok ks' =>
    rw [hks] at h
    cases h
    exact fun k hk => exists_of_mem_ofMembers hks k (List.mem_mergeSort.1 hk)

end KeyText

namespace Encoder

variable {e : Encoder σ} {recur : Path → Value → TextM σ Bytes} {p : Path} {v : Value}
  {vs : List Value} {ms : Members} {b : Bytes} {x : Stop} {h h' : σ}

/-- Members in the order in which they are written. Where that is the order of their keys, these are
put into text before it starts; else each when its turn comes. -/
def turns (e : Encoder σ) (ms : Members) :
    Except EncodeError (List (Except EncodeError KeyText × Value)) :=
  if e.options.sortKeys then do
    return (← KeyText.sorted e.graph e.options ms).map fun m => (.ok m.1, m.2)
  else .ok (ms.map fun m => (KeyText.ofValue e.graph e.options m.1, m.2))

/-- A member whose turn it is. -/
def turnText (e : Encoder σ) (recur : Value → TextM σ Bytes)
    (m : Except EncodeError KeyText × Value) : TextM σ Bytes := do
  e.memberText (← lift m.1) (recur m.2)

theorem memberTexts_eq (t : Value → TextM σ Bytes) :
    e.memberTexts t ms = lift (e.turns ms) >>= fun ts => pure (ts.map (e.turnText t)) := by
  rw [memberTexts, turns]
  split
  · cases KeyText.sorted e.graph e.options ms with
    | error y => rfl
    | ok ks =>
      have hturns : (do return (← Except.ok ks).map fun m => (Except.ok m.1, m.2) :
          Except EncodeError (List (Except EncodeError KeyText × Value))) =
          .ok (ks.map fun m => (.ok m.1, m.2)) := rfl
      rw [hturns, lift, lift, pure_bind, pure_bind, List.map_map]
      rfl
  · rw [lift, pure_bind, List.map_map]
    rfl

theorem turnText_eq_ok_iff {t : Value → TextM σ Bytes} {m : Except EncodeError KeyText × Value} :
    e.turnText t m h = .ok b h' ↔
      ∃ k c, m.1 = .ok k ∧ t m.2 h = .ok c h' ∧ b = e.options.memberBytes (k, c) := by
  simp only [turnText, memberText, bind_eq_ok_iff, lift_eq_ok_iff]
  constructor
  · rintro ⟨k, h₁, ⟨hk, rfl⟩, c, h₂, hc, he⟩
    cases he
    exact ⟨k, c, hk, hc, rfl⟩
  · rintro ⟨k, c, hk, hc, rfl⟩
    exact ⟨k, h, ⟨hk, rfl⟩, c, h', hc, rfl⟩

theorem exists_of_turnText_eq_error {t : Value → TextM σ Bytes}
    {m : Except EncodeError KeyText × Value} (he : e.turnText t m h = .error x h') :
    (∃ y, m.1 = .error y ∧ x = .refused y) ∨ ∃ k, m.1 = .ok k ∧ t m.2 h = .error x h' := by
  simp only [turnText, memberText, bind_eq_error_iff, lift_eq_ok_iff] at he
  rcases he with he | ⟨k, h₁, ⟨hk, rfl⟩, he | ⟨c, h₂, hc, he⟩⟩
  · exact .inl (lift_eq_error he)
  · exact .inr ⟨k, hk, he⟩
  · cases he

/-- What has its turn is a member. -/
theorem exists_of_mem_turns {ts : List (Except EncodeError KeyText × Value)}
    (hts : e.turns ms = .ok ts) {t : Except EncodeError KeyText × Value} (ht : t ∈ ts) :
    ∃ m ∈ ms, t = (KeyText.ofValue e.graph e.options m.1, m.2) := by
  rw [turns] at hts
  split at hts
  · cases hks : KeyText.sorted e.graph e.options ms with
    | error y =>
      rw [hks] at hts
      cases hts
    | ok ks =>
      rw [hks] at hts
      cases hts
      obtain ⟨k, hk, rfl⟩ := List.mem_map.1 ht
      obtain ⟨m, hm, hkey, hv⟩ := KeyText.exists_of_mem_sorted hks k hk
      exact ⟨m, hm, by rw [hkey, hv]⟩
  · cases hts
    obtain ⟨m, hm, rfl⟩ := List.mem_map.1 ht
    exact ⟨m, hm, rfl⟩

theorem turns_eq_ok_nil_iff : e.turns ms = .ok [] ↔ ms = [] := by
  rw [turns]
  split
  · constructor
    · intro ht
      cases hks : KeyText.sorted e.graph e.options ms with
      | error y =>
        rw [hks] at ht
        cases ht
      | ok ks =>
        rw [hks] at ht
        have hnil : ks = [] := List.map_eq_nil_iff.1 (Except.ok.inj ht)
        refine List.eq_nil_iff_forall_not_mem.2 fun m hm => ?_
        obtain ⟨k, -, hmem⟩ := KeyText.exists_of_sorted hks m hm
        rw [hnil] at hmem
        cases hmem
    · rintro rfl
      have hks : KeyText.sorted e.graph e.options [] = .ok [] := by
        simp only [KeyText.sorted, KeyText.ofMembers, List.mapM_nil, pure_bind, List.mergeSort_nil]
        rfl
      rw [hks]
      rfl
  · rw [Except.ok.injEq, List.map_eq_nil_iff]

/-! ## Containers -/

section Containers

variable {ι : Type} {left right : UInt8} {isEmpty : Bool} {y : Except EncodeError (List ι)}
  {f : ι → TextM σ Bytes}

/-- A container of parts that are made in turn. -/
theorem containerText_eq_ok_iff (hy : isEmpty = true ↔ y = .ok []) :
    e.containerText p left right isEmpty (lift y >>= fun xs => pure (xs.map f)) h = .ok b h' ↔
      p.depth < Limits.maxDepth ∧ ∃ xs bs, y = .ok xs ∧ Runs (xs.map f) h bs h' ∧
        b = e.options.bracketed p.depth left right bs := by
  by_cases hd : p.depth < Limits.maxDepth
  · rw [containerText_of_lt hd]
    cases hempty : isEmpty with
    | true =>
      have hnil := hy.1 hempty
      constructor
      · intro he
        cases he
        exact ⟨hd, [], [], hnil, .nil, rfl⟩
      · rintro ⟨-, xs, bs, hxs, hruns, rfl⟩
        rw [hnil] at hxs
        cases hxs
        cases hruns
        rfl
    | false =>
      have hbracketed {xs : List ι} {bs : List Bytes} (hxs : y = .ok xs)
          (hruns : Runs (xs.map f) h bs h') : e.options.bracketed p.depth left right bs =
            left :: (joined (e.options.leadAt (p.depth + 1)) true bs ++ e.options.breakAt p.depth ++
              [right]) := by
        have hbs : ¬bs.isEmpty = true := by
          rw [List.isEmpty_iff, hruns.eq_nil_iff, List.map_eq_nil_iff]
          rintro rfl
          rw [hy.2 hxs] at hempty
          cases hempty
        rw [Options.bracketed, if_neg hbs]
      simp only [Bool.false_eq_true, ite_false, bind_eq_ok_iff, lift_eq_ok_iff, partsText_eq_ok_iff]
      constructor
      · rintro ⟨inside, h₁, ⟨ts, h₂, ⟨xs, h₃, ⟨hxs, rfl⟩, hts⟩, bs, hruns, rfl⟩, he⟩
        cases hts
        cases he
        exact ⟨hd, xs, bs, hxs, hruns, (hbracketed hxs hruns).symm⟩
      · rintro ⟨-, xs, bs, hxs, hruns, rfl⟩
        rw [hbracketed hxs hruns]
        exact ⟨_, h', ⟨_, h, ⟨xs, h, ⟨hxs, rfl⟩, rfl⟩, bs, hruns, rfl⟩, rfl⟩
  · rw [containerText_of_ge (Nat.le_of_not_lt hd)]
    exact iff_of_false (fun hb => by cases hb) fun hall => hd hall.1

theorem exists_of_containerText_eq_error
    (he : e.containerText p left right isEmpty (lift y >>= fun xs => pure (xs.map f)) h =
      .error x h') :
    x = .refused .recursionLimit ∨ (∃ z, y = .error z ∧ x = .refused z) ∨
      p.depth < Limits.maxDepth ∧ ∃ done t rest bs h₁, y = .ok (done ++ t :: rest) ∧
        Runs (done.map f) h bs h₁ ∧ f t h₁ = .error x h' := by
  by_cases hd : p.depth < Limits.maxDepth
  · rw [containerText_of_lt hd] at he
    split at he
    · cases he
    · simp only [bind_eq_error_iff, bind_eq_ok_iff, lift_eq_ok_iff] at he
      rcases he with (⟨he | ⟨xs, h₁, hxs, he⟩⟩ | ⟨ts, h₁, ⟨xs, h₂, ⟨hxs, rfl⟩, hts⟩, he⟩) |
        ⟨inside, h₁, hinside, he⟩
      · exact .inr (.inl (lift_eq_error he))
      · cases he
      · cases hts
        obtain ⟨done, t, rest, bs, h₁, rfl, hdone, ht⟩ := exists_of_partsText_eq_error he
        exact .inr (.inr ⟨hd, done, t, rest, bs, h₁, hxs, hdone, ht⟩)
      · cases he
  · rw [containerText_of_ge (Nat.le_of_not_lt hd)] at he
    cases he
    exact .inl rfl

end Containers

theorem arrayText_eq : e.arrayText recur p vs =
    e.containerText p bracketOpen bracketClose vs.isEmpty
      (lift (.ok vs) >>= fun vs => pure (vs.map (recur p.deeper))) := rfl

theorem objectText_eq : e.objectText recur p ms =
    e.containerText p braceOpen braceClose ms.isEmpty
      (lift (e.turns ms) >>= fun ts => pure (ts.map (e.turnText (recur p.deeper)))) := by
  rw [objectText, memberTexts_eq]

end Encoder

end JsonCodec
