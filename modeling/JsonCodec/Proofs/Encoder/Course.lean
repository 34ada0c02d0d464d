/-
The course of an encoding as its hook sees it (`Encoder.Course`): the values that are reached, in the
order of their bytes, and the calls of the hook.

A value is reached in value position: as an item, under a key, in place of another, or as an answer.
Keys are never reached. Each value has a position, the numbers of the parts that lead down to it, and
the parts of a value (`Encoder.parts`) are reached one behind the other, each of them once, up to the
first that fails. So values are reached in the order of their positions (`Course.pairwise_isBefore`),
no two of them at the same (`Course.nodup_position`), and where nothing fails all of them are
(`Course.exists_visit_of_part`).

Where a value has no native encoding (`Encoder.needsHook`), and its handle is not open, the next thing
to happen is that the hook is asked about it, and if there is an answer that this is reached; so the
hook is called once for each such value and for no other (`Course.calls_eq`). Only the answers on the
path to a value count against the limit. The values that fail the encoding are those that are barred
(`Encoder.Bars`), those the hook declines, and leaves and keys with an error of their own.
-/
import Mathlib.Data.List.Lex
import JsonCodec.Proofs.Encoder.Descent

namespace JsonCodec

variable {σ : Type}

/-! ## Parts -/

/-- What is written inside a value, one behind the other. -/
structure Parts where
  values : List Value
  /-- The error of the value's own that they end with, if they do. -/
  error : Option EncodeError := none

namespace Parts

/-- No parts where something fails at once. -/
def ofExcept : Except EncodeError Parts → Parts
  | .ok ps => ps
  | .error x => { values := [], error := some x }

/-- Members up to the first key that has no text. -/
def ofTurns : List (Except EncodeError KeyText × Value) → Parts
  | [] => { values := [] }
  | t :: ts =>
    .ofExcept (t.1.map fun _ => { values := t.2 :: (ofTurns ts).values, error := (ofTurns ts).error })

end Parts

namespace Encoder

variable (e : Encoder σ)

/-- The parts of a value: its items, the values of its members in the order in which these are
written, or the value that is written in its place a level deeper. -/
def parts (v : Value) : Parts :=
  match e.form v with
  | .leaf => .ofExcept ((v.leafText e.options).map fun _ => { values := [] })
  | .items vs => { values := vs }
  | .members ms => .ofExcept ((e.turns ms).map .ofTurns)
  | .level w => { values := [w] }
  | .asked => { values := [] }

/-- Whether a value has no native encoding: an application value that stands for no other and has no
fields that are written, and a datetime, date or time where those go to the hook. -/
def needsHook : Value → Bool
  | .foreign id _ =>
    (e.graph.enumValue id).isNone &&
      (e.options.passthroughDataclass || (e.graph.fields id).isNone)
  | .dateTime _ | .date _ | .time _ => e.options.passthroughDatetime
  | _ => false

theorem form_eq_asked_iff (v : Value) : e.form v = .asked ↔ e.needsHook v = true := by
  cases v with
  | foreign id name =>
    rw [form, needsHook, fields?]
    cases e.graph.enumValue id with
    | some w => exact iff_of_false Form.noConfusion Bool.noConfusion
    | none =>
      cases e.options.passthroughDataclass with
      | true => exact iff_of_true rfl rfl
      | false =>
        cases e.graph.fields id with
        | some ms => exact iff_of_false Form.noConfusion Bool.noConfusion
        | none => exact iff_of_true rfl rfl
  | dateTime _ | date _ | time _ =>
    rw [form, needsHook]
    cases e.options.passthroughDatetime with
    | true => exact iff_of_true rfl rfl
    | false => exact iff_of_false Form.noConfusion Bool.noConfusion
  | _ => exact iff_of_false Form.noConfusion Bool.noConfusion

end Encoder

namespace Parts

variable {ts : List (Except EncodeError KeyText × Value)} {w : Value} {x : EncodeError}

/-- What has its turn is one of the members. -/
theorem exists_of_mem_ofTurns (hw : w ∈ (ofTurns ts).values) : ∃ t ∈ ts, t.2 = w := by
  induction ts with
  | nil => cases hw
  | cons t ts ih =>
    rw [ofTurns] at hw
    cases ht : t.1 with
    | ok k =>
      rw [ht] at hw
      rcases List.mem_cons.1 hw with rfl | hw
      · exact ⟨t, List.mem_cons_self, rfl⟩
      · obtain ⟨u, hu, hv⟩ := ih hw
        exact ⟨u, List.mem_cons_of_mem _ hu, hv⟩
    | error x =>
      rw [ht] at hw
      cases hw

theorem exists_of_error_ofTurns (hx : (ofTurns ts).error = some x) : ∃ t ∈ ts, t.1 = .error x := by
  induction ts with
  | nil => cases hx
  | cons t ts ih =>
    rw [ofTurns] at hx
    cases ht : t.1 with
    | ok k =>
      rw [ht] at hx
      obtain ⟨u, hu, hy⟩ := ih hx
      exact ⟨u, List.mem_cons_of_mem _ hu, hy⟩
    | error y =>
      rw [ht] at hx
      cases hx
      exact ⟨t, List.mem_cons_self, ht⟩

end Parts

namespace Encoder

variable {e : Encoder σ} {v w : Value} {vs : List Value} {ms : Members}

theorem parts_of_leaf (hf : e.form v = .leaf) :
    e.parts v = .ofExcept ((v.leafText e.options).map fun _ => { values := [] }) := by
  simp only [parts, hf]

theorem parts_of_items (hf : e.form v = .items vs) : e.parts v = { values := vs } := by
  simp only [parts, hf]

theorem parts_of_members (hf : e.form v = .members ms) :
    e.parts v = .ofExcept ((e.turns ms).map .ofTurns) := by simp only [parts, hf]

theorem parts_of_level (hf : e.form v = .level w) : e.parts v = { values := [w] } := by
  simp only [parts, hf]

theorem parts_of_asked (hf : e.form v = .asked) : e.parts v = { values := [] } := by
  simp only [parts, hf]

theorem needsHook_of_takesLevel (h : (e.form v).takesLevel = true) : e.needsHook v = false := by
  rw [← Bool.not_eq_true, ← form_eq_asked_iff]
  intro hasked
  rw [hasked] at h
  cases h

/-- An error that the parts end with is the fault of a leaf or a key. -/
theorem isOwn_of_parts {x : EncodeError} (hx : (e.parts v).error = some x) : x.isOwn = true := by
  cases hf : e.form v with
  | leaf =>
    rw [parts_of_leaf hf] at hx
    cases hy : v.leafText e.options with
    | ok b =>
      rw [hy] at hx
      cases hx
    | error y =>
      rw [hy] at hx
      cases hx
      exact Value.isOwn_of_leafText hy
  | items vs =>
    rw [parts_of_items hf] at hx
    cases hx
  | members ms =>
    rw [parts_of_members hf] at hx
    cases hts : e.turns ms with
    | ok ts =>
      rw [hts] at hx
      obtain ⟨t, ht, hy⟩ := Parts.exists_of_error_ofTurns hx
      exact isOwn_of_mem_turns hts ht hy
    | error y =>
      rw [hts] at hx
      cases hx
      exact isOwn_of_turns hts
  | level u =>
    rw [parts_of_level hf] at hx
    cases hx
  | asked =>
    rw [parts_of_asked hf] at hx
    cases hx

/-- A part is in value position, and a level deeper. -/
theorem standsIn_of_mem_parts (hw : w ∈ (e.parts v).values) :
    e.StandsIn v w ∧ (e.form v).takesLevel = true := by
  cases hf : e.form v with
  | leaf =>
    rw [parts_of_leaf hf] at hw
    cases hx : v.leafText e.options <;> rw [hx] at hw <;> cases hw
  | items vs =>
    rw [parts_of_items hf] at hw
    exact ⟨.item hf hw, rfl⟩
  | members ms =>
    rw [parts_of_members hf] at hw
    cases hts : e.turns ms with
    | ok ts =>
      rw [hts] at hw
      obtain ⟨t, ht, rfl⟩ := Parts.exists_of_mem_ofTurns hw
      obtain ⟨m, hm, rfl⟩ := exists_of_mem_turns hts ht
      exact ⟨.member hf hm, rfl⟩
    | error x =>
      rw [hts] at hw
      cases hw
  | level u =>
    rw [parts_of_level hf] at hw
    cases List.mem_singleton.1 hw
    exact ⟨.level hf, rfl⟩
  | asked =>
    rw [parts_of_asked hf] at hw
    cases hw

end Encoder

/-! ## Places -/

/-- What there is when a value is about to be written. -/
structure Moment where
  value : Value
  /-- The values that are being written, the innermost first. -/
  around : List Value
  guards : Path
  /-- The numbers of the parts that lead down to the value, from the top. -/
  position : List Nat

namespace Moment

/-- At the top, before anything has been written. -/
def top (v : Value) : Moment := ⟨v, [], {}, []⟩

/-- The path inside the value. -/
def inside (m : Moment) : Path := m.guards.into m.value

/-- At the `i`-th part of the value, which is `w`. -/
def part (m : Moment) (i : Nat) (w : Value) : Moment :=
  ⟨w, m.value :: m.around, m.inside.deeper, m.position ++ [i]⟩

/-- At the answer `w` that there is for the value. -/
def answer (m : Moment) (w : Value) : Moment :=
  ⟨w, m.value :: m.around, m.inside.hooked, m.position ++ [0]⟩

/-- Whether the value is inside itself. -/
def isOpen (m : Moment) : Bool := m.value.handle?.any fun i => i ∈ m.guards.opened

/-- One position is before another if it leads to it or turns off to an earlier part. -/
def IsBefore (m m' : Moment) : Prop := List.Lex (· < ·) m.position m'.position

theorem isOpen_eq_false_iff {m : Moment} :
    m.isOpen = false ↔ ∀ i ∈ m.value.handle?, i ∉ m.guards.opened := by
  rw [isOpen]
  cases m.value.handle? with
  | none => simp
  | some i => simp

variable {m m₁ m₂ : Moment} {i j : Nat}

theorem isBefore_of_part (h : m.position ++ [i] <+: m₁.position) : m.IsBefore m₁ := by
  obtain ⟨s, hs⟩ := h
  have hlex : List.Lex (· < ·) (m.position ++ []) (m.position ++ i :: s) :=
    List.Lex.append_left _ .nil _
  rwa [List.append_nil, List.append_cons, hs] at hlex

theorem isBefore_of_parts (hij : i < j) (h₁ : m.position ++ [i] <+: m₁.position)
    (h₂ : m.position ++ [j] <+: m₂.position) : m₁.IsBefore m₂ := by
  obtain ⟨s, hs⟩ := h₁
  obtain ⟨t, ht⟩ := h₂
  have hlex : List.Lex (· < ·) (m.position ++ i :: s) (m.position ++ j :: t) :=
    List.Lex.append_left _ (.rel hij) _
  rwa [List.append_cons, hs, List.append_cons, ht] at hlex

theorem IsBefore.position_ne (h : m₁.IsBefore m₂) : m₁.position ≠ m₂.position := by
  intro he
  rw [IsBefore, he] at h
  exact List.lex_irrefl Nat.lt_irrefl _ h

end Moment

/-- One step down: to a part, if there may be one more level, or to what the hook answers, if there
may be one more answer. -/
inductive Encoder.Steps (e : Encoder σ) (m : Moment) : Moment → Prop
  | part {i : Nat} {w : Value} (ho : m.isOpen = false) (hd : m.guards.depth < Limits.maxDepth)
    (hw : (e.parts m.value).values[i]? = some w) : Steps e m (m.part i w)
  | answer {hook : Hook σ} {w : Value} {h h' : σ} (ho : m.isOpen = false)
    (hv : e.needsHook m.value = true) (hh : e.hook = some hook)
    (hd : m.guards.hookDepth < Limits.maxHookDepth)
    (ha : (hook m.value).run h = (some w, h')) : Steps e m (m.answer w)

theorem Encoder.Steps.standsIn {e : Encoder σ} {m m' : Moment} (h : e.Steps m m') :
    e.StandsIn m.value m'.value := by
  cases h with
  | part _ _ hw => exact (standsIn_of_mem_parts (List.mem_of_getElem? hw)).1
  | answer _ hv _ _ _ => exact .answer ((e.form_eq_asked_iff _).2 hv)

theorem Encoder.Steps.descends {e : Encoder σ} {m m' : Moment} (h : e.Steps m m') :
    e.Descends m.guards m.value m'.guards := by
  cases h with
  | part ho hd hw =>
    have hf := (standsIn_of_mem_parts (List.mem_of_getElem? hw)).2
    exact .deeper (Moment.isOpen_eq_false_iff.1 ho) hf hd
  | answer ho hv _ hd _ =>
    exact .hooked (Moment.isOpen_eq_false_iff.1 ho) ((e.form_eq_asked_iff _).2 hv) hd

theorem Encoder.Steps.around_eq {e : Encoder σ} {m m' : Moment} (h : e.Steps m m') :
    m'.around = m.value :: m.around := by
  cases h <;> rfl

/-- Where a value is, in the encoding of `top`: what is around it leads down to it, and the guards say
of that which handles it has and how many answers of the hook there are on the way. -/
structure Moment.IsPlaced (e : Encoder σ) (top : Value) (m : Moment) : Prop where
  path : (m.value :: m.around).IsChain fun w v => e.StandsIn v w
  top : (m.value :: m.around).getLast? = some top
  opened : m.guards.opened = m.around.filterMap Value.handle?
  hookDepth : m.guards.hookDepth = m.around.countP e.needsHook

theorem Path.opened_into (p : Path) (v : Value) :
    (p.into v).opened = v.handle?.toList ++ p.opened := by
  rw [into]
  cases v.handle? <;> rfl

/-- A step down from a value that is in its place leads to a place in it. -/
theorem Moment.IsPlaced.step {e : Encoder σ} {top : Value} {m m' : Moment} (h : m.IsPlaced e top)
    (hs : e.Steps m m') : m'.IsPlaced e top := by
  have hopened : (m.guards.into m.value).opened = (m.value :: m.around).filterMap Value.handle? := by
    rw [Path.opened_into, h.opened, List.filterMap_cons]
    cases m.value.handle? <;> rfl
  have hdepth : (m.guards.into m.value).hookDepth = m.around.countP e.needsHook := by
    rw [Path.hookDepth_into]
    exact h.hookDepth
  have hstands := hs.standsIn
  cases hs with
  | @part i w _ _ hw =>
    have hlevel := (Encoder.standsIn_of_mem_parts (List.mem_of_getElem? hw)).2
    have hv : ¬e.needsHook m.value = true :=
      Bool.not_eq_true _ ▸ Encoder.needsHook_of_takesLevel hlevel
    refine ⟨List.isChain_cons_cons.2 ⟨hstands, h.path⟩, ?_, hopened, ?_⟩
    · rw [← h.top]
      exact List.getLast?_cons_cons
    · exact hdepth.trans (List.countP_cons_of_neg hv).symm
  | answer _ hv _ _ _ =>
    refine ⟨List.isChain_cons_cons.2 ⟨hstands, h.path⟩, ?_, hopened, ?_⟩
    · rw [← h.top]
      exact List.getLast?_cons_cons
    · exact (congrArg (· + 1) hdepth).trans (List.countP_cons_of_pos hv).symm

/-! ## Events -/

/-- A value that is reached. -/
structure Visit extends Moment where
  /-- How many bytes there are in the buffer. -/
  written : Nat

/-- What may be told of an encoding. -/
inductive Event where
  | reached (m : Visit)
  /-- The hook was called with a value and gave an answer. -/
  | asked (v : Value) (answer : Option Value)

namespace Event

/-- The values that were reached. -/
def visits : List Event → List Visit
  | [] => []
  | reached m :: events => m :: visits events
  | asked _ _ :: events => visits events

/-- The values that the hook was called with. -/
def calls : List Event → List Value
  | [] => []
  | reached _ :: events => calls events
  | asked v _ :: events => v :: calls events

theorem visits_append (a b : List Event) : visits (a ++ b) = visits a ++ visits b := by
  induction a with
  | nil => rfl
  | cons x a ih =>
    cases x with
    | reached m => exact congrArg (m :: ·) ih
    | asked => exact ih

theorem calls_append (a b : List Event) : calls (a ++ b) = calls a ++ calls b := by
  induction a with
  | nil => rfl
  | cons x a ih =>
    cases x with
    | reached => exact ih
    | asked v => exact congrArg (v :: ·) ih

end Event

namespace Encoder

/-- Whether the hook is asked about the value that is reached. -/
def asks (e : Encoder σ) (m : Visit) : Bool :=
  e.needsHook m.value && !m.isOpen && e.hook.isSome && m.guards.hookDepth < Limits.maxHookDepth

/-- The value is refused with an error as soon as it is reached: since it is inside itself, since there
may be no more levels, or since it has no native encoding and there is no hook to ask or there may be
no more answers. -/
inductive Bars (e : Encoder σ) (m : Moment) : EncodeError → Prop
  | circular (ho : m.isOpen = true) : Bars e m .circularReference
  | tooDeep (ho : m.isOpen = false) (hf : (e.form m.value).takesLevel = true)
    (hd : Limits.maxDepth ≤ m.guards.depth) : Bars e m .recursionLimit
  | hookless (ho : m.isOpen = false) (hv : e.needsHook m.value = true) (hh : e.hook = none) :
    Bars e m (.unsupported m.value.typeName)
  | tooManyAnswers {hook : Hook σ} (ho : m.isOpen = false) (hv : e.needsHook m.value = true)
    (hh : e.hook = some hook) (hd : Limits.maxHookDepth ≤ m.guards.hookDepth) :
    Bars e m .hookRecursionLimit

theorem asks_eq_true {e : Encoder σ} {m : Visit} {hook : Hook σ} (ho : m.isOpen = false)
    (hv : e.needsHook m.value = true) (hh : e.hook = some hook)
    (hd : m.guards.hookDepth < Limits.maxHookDepth) : e.asks m = true := by
  simp [asks, ho, hv, hh, hd]

theorem Bars.asks_eq_false {e : Encoder σ} {m : Visit} {x : EncodeError} (h : e.Bars m.toMoment x) :
    e.asks m = false := by
  cases h with
  | circular ho => simp [asks, ho]
  | tooDeep _ hf _ => simp [asks, needsHook_of_takesLevel hf]
  | hookless _ _ hh => simp [asks, hh]
  | tooManyAnswers _ _ _ hd => simp [asks, Nat.not_lt.2 hd]

/-- There is one such error. -/
theorem Bars.unique {e : Encoder σ} {m : Moment} {x y : EncodeError} (hx : e.Bars m x)
    (hy : e.Bars m y) : x = y := by
  cases hx with
  | circular ho =>
    cases hy with
    | circular => rfl
    | tooDeep ho' | hookless ho' | tooManyAnswers ho' => exact absurd (ho.symm.trans ho') nofun
  | tooDeep ho hf =>
    have hv := needsHook_of_takesLevel hf
    cases hy with
    | circular ho' => exact absurd (ho.symm.trans ho') nofun
    | tooDeep => rfl
    | hookless _ hv' | tooManyAnswers _ hv' => exact absurd (hv.symm.trans hv') nofun
  | hookless ho hv hh =>
    cases hy with
    | circular ho' => exact absurd (ho.symm.trans ho') nofun
    | tooDeep _ hf => exact absurd (hv.symm.trans (needsHook_of_takesLevel hf)) nofun
    | hookless => rfl
    | tooManyAnswers _ _ hh' => exact absurd (hh.symm.trans hh') nofun
  | tooManyAnswers ho hv hh =>
    cases hy with
    | circular ho' => exact absurd (ho.symm.trans ho') nofun
    | tooDeep _ hf => exact absurd (hv.symm.trans (needsHook_of_takesLevel hf)) nofun
    | hookless _ _ hh' => exact absurd (hh.symm.trans hh') nofun
    | tooManyAnswers => rfl

/-- What is to be written. -/
inductive Task where
  | value (m : Moment)
  /-- The parts of a value from the `i`-th on. -/
  | parts (m : Moment) (i : Nat) (rest : Parts)

/-- The course of an encoding, or of a part of it: with `n` bytes in the buffer and the hook in the
state `h` before it, and `n'` and `h'` behind it or where it fails. -/
inductive Course (e : Encoder σ) :
    Task → (n : Nat) → (h : σ) → List Event → (n' : Nat) → (h' : σ) → Option Stop → Prop
  | outOfBudget {m : Moment} {n : Nat} {h : σ} :
    Course e (.value m) n h [] n h (some .outOfBudget)
  /-- The hook is not called. -/
  | barred {m : Moment} {n : Nat} {h : σ} {x : EncodeError} (hx : e.Bars m x) :
    Course e (.value m) n h [.reached ⟨m, n⟩] n h (some (.refused x))
  /-- A value that has a native encoding is written part by part. -/
  | native {m : Moment} {n n' : Nat} {h h' : σ} {events : List Event} {r : Option Stop}
    (ho : m.isOpen = false) (hv : e.needsHook m.value = false)
    (hd : (e.form m.value).takesLevel = true → m.guards.depth < Limits.maxDepth)
    (hs : Course e (.parts m 0 (e.parts m.value)) n h events n' h' r) :
    Course e (.value m) n h (.reached ⟨m, n⟩ :: events) n' h' r
  | declined {m : Moment} {n : Nat} {h h' : σ} {hook : Hook σ} (ho : m.isOpen = false)
    (hv : e.needsHook m.value = true) (hh : e.hook = some hook)
    (hd : m.guards.hookDepth < Limits.maxHookDepth) (ha : (hook m.value).run h = (none, h')) :
    Course e (.value m) n h [.reached ⟨m, n⟩, .asked m.value none] n h'
      (some (.refused (.unsupported m.value.typeName)))
  /-- An answer is reached in its turn. -/
  | answered {m : Moment} {n n' : Nat} {h h₁ h' : σ} {hook : Hook σ} {w : Value}
    {events : List Event} {r : Option Stop} (ho : m.isOpen = false)
    (hv : e.needsHook m.value = true) (hh : e.hook = some hook)
    (hd : m.guards.hookDepth < Limits.maxHookDepth) (ha : (hook m.value).run h = (some w, h₁))
    (hs : Course e (.value (m.answer w)) n h₁ events n' h' r) :
    Course e (.value m) n h (.reached ⟨m, n⟩ :: .asked m.value (some w) :: events) n' h' r
  | done {m : Moment} {i n n' : Nat} {h : σ} (hn : n ≤ n') :
    Course e (.parts m i ⟨[], none⟩) n h [] n' h none
  | refused {m : Moment} {i n n' : Nat} {h : σ} {x : EncodeError} (hn : n ≤ n') :
    Course e (.parts m i ⟨[], some x⟩) n h [] n' h (some (.refused x))
  /-- A part is reached, and when it has been written the next one. -/
  | part {m : Moment} {i n n₁ n₂ n' : Nat} {h h₁ h' : σ} {w : Value} {rest : List Value}
    {x : Option EncodeError} {a b : List Event} {r : Option Stop} (hn : n ≤ n₁)
    (hw : Course e (.value (m.part i w)) n₁ h a n₂ h₁ none)
    (hs : Course e (.parts m (i + 1) ⟨rest, x⟩) n₂ h₁ b n' h' r) :
    Course e (.parts m i ⟨w :: rest, x⟩) n h (a ++ b) n' h' r
  /-- A part that fails is the last. -/
  | failed {m : Moment} {i n n₁ n' : Nat} {h h' : σ} {w : Value} {rest : List Value}
    {x : Option EncodeError} {a : List Event} {y : Stop} (hn : n ≤ n₁)
    (hw : Course e (.value (m.part i w)) n₁ h a n' h' (some y)) :
    Course e (.parts m i ⟨w :: rest, x⟩) n h a n' h' (some y)

namespace Course

open Event

variable {e : Encoder σ} {t : Task} {m : Moment} {i n n₁ n' : Nat} {h h' : σ} {ps : Parts}
  {events : List Event} {r : Option Stop}

/-- What is known of the place in the buffer in front of a part is known of any place before it. -/
theorem of_le (hs : e.Course (.parts m i ps) n₁ h events n' h' r) (hn : n ≤ n₁) :
    e.Course (.parts m i ps) n h events n' h' r := by
  cases hs with
  | done hn₁ => exact .done (Nat.le_trans hn hn₁)
  | refused hn₁ => exact .refused (Nat.le_trans hn hn₁)
  | part hn₁ hw hs => exact .part (Nat.le_trans hn hn₁) hw hs
  | failed hn₁ hw => exact .failed (Nat.le_trans hn hn₁) hw

/-- What is written behind the last part belongs to the value. -/
theorem to_le (hs : e.Course t n h events n₁ h' none) (hn : n₁ ≤ n') :
    e.Course t n h events n' h' none := by
  generalize hr : (none : Option Stop) = r at hs
  induction hs with
  | native ho hv hd _ ih => exact .native ho hv hd (ih hn hr)
  | answered ho hv hh hd ha _ ih => exact .answered ho hv hh hd ha (ih hn hr)
  | done hn₁ => exact .done (Nat.le_trans hn₁ hn)
  | part hn₁ hw _ _ ih => exact .part hn₁ hw (ih hn hr)
  | outOfBudget | barred | declined | refused | failed => cases hr

/-- **The hook is called once for each value that is reached, has no native encoding and may be asked
about, and for no other.** -/
theorem calls_eq (hs : e.Course t n h events n' h' r) :
    calls events = ((visits events).filter e.asks).map fun m => m.value := by
  have skip {m : Visit} {events : List Event} (hm : e.asks m = false)
      (h : calls events = ((visits events).filter e.asks).map fun m => m.value) :
      calls (.reached m :: events) =
        ((visits (.reached m :: events)).filter e.asks).map fun m => m.value := by
    rw [visits, List.filter_cons_of_neg (by simp [hm])]
    exact h
  have call {m : Visit} {answer : Option Value} {events : List Event} (hm : e.asks m = true)
      (h : calls events = ((visits events).filter e.asks).map fun m => m.value) :
      calls (.reached m :: .asked m.value answer :: events) =
        ((visits (.reached m :: .asked m.value answer :: events)).filter e.asks).map
          fun m => m.value := by
    rw [visits, visits, List.filter_cons_of_pos hm]
    exact congrArg (List.cons m.value) h
  induction hs with
  | outOfBudget | done | refused => rfl
  | barred hx => exact skip hx.asks_eq_false rfl
  | native _ hv _ _ ih => exact skip (by simp [asks, hv]) ih
  | declined ho hv hh hd _ => exact call (asks_eq_true ho hv hh hd) rfl
  | answered ho hv hh hd _ _ ih => exact call (asks_eq_true ho hv hh hd) ih
  | part _ _ _ ihw ih =>
    rw [calls_append, visits_append, List.filter_append, List.map_append, ihw, ih]
  | failed _ _ ih => exact ih

/-! ## Places in the course -/

theorem le (hs : e.Course t n h events n' h' r) : n ≤ n' := by
  induction hs with
  | outOfBudget | barred | declined => exact Nat.le_refl _
  | native _ _ _ _ ih | answered _ _ _ _ _ _ ih => exact ih
  | done hn | refused hn => exact hn
  | part hn _ _ ihw ih => exact Nat.le_trans hn (Nat.le_trans ihw ih)
  | failed hn _ ih => exact Nat.le_trans hn ih

theorem written_mem (hs : e.Course t n h events n' h' r) :
    ∀ m ∈ visits events, n ≤ m.written ∧ m.written ≤ n' := by
  induction hs with
  | outOfBudget | done | refused => exact List.forall_mem_nil _
  | barred | declined =>
    exact List.forall_mem_singleton.2 ⟨Nat.le_refl _, Nat.le_refl _⟩
  | native _ _ _ hs ih | answered _ _ _ _ _ hs ih =>
    exact List.forall_mem_cons.2 ⟨⟨Nat.le_refl _, hs.le⟩, ih⟩
  | part hn hw hs ihw ih =>
    rw [visits_append]
    refine List.forall_mem_append.2 ⟨fun m hm => ?_, fun m hm => ?_⟩
    · exact ⟨Nat.le_trans hn (ihw m hm).1, Nat.le_trans (ihw m hm).2 hs.le⟩
    · exact ⟨Nat.le_trans hn (Nat.le_trans hw.le (ih m hm).1), (ih m hm).2⟩
  | failed hn _ ih => exact fun m hm => ⟨Nat.le_trans hn (ih m hm).1, (ih m hm).2⟩

end Course

/-- Whether a value at a position may be reached in a task. -/
def Task.Covers : Task → List Nat → Prop
  | .value m, q => m.position <+: q
  | .parts m i _, q => ∃ j, i ≤ j ∧ m.position ++ [j] <+: q

namespace Course

open Event

variable {e : Encoder σ} {t : Task} {m : Moment} {i n n₁ n' : Nat} {h h' : σ} {ps : Parts}
  {events : List Event} {r : Option Stop}

theorem covers (hs : e.Course t n h events n' h' r) : ∀ m ∈ visits events, t.Covers m.position := by
  induction hs with
  | outOfBudget | done | refused => exact List.forall_mem_nil _
  | barred | declined =>
    exact List.forall_mem_singleton.2 (List.prefix_refl _)
  | native _ _ _ _ ih =>
    refine List.forall_mem_cons.2 ⟨List.prefix_refl _, fun m hm => ?_⟩
    obtain ⟨j, -, hj⟩ := ih m hm
    exact (List.prefix_append _ _).trans hj
  | answered _ _ _ _ _ _ ih =>
    refine List.forall_mem_cons.2 ⟨List.prefix_refl _, fun m hm => ?_⟩
    exact (List.prefix_append _ _).trans (ih m hm)
  | part _ _ _ ihw ih =>
    rw [visits_append]
    refine List.forall_mem_append.2 ⟨fun m hm => ⟨_, Nat.le_refl _, ihw m hm⟩, fun m hm => ?_⟩
    obtain ⟨j, hij, hj⟩ := ih m hm
    exact ⟨j, Nat.le_of_succ_le hij, hj⟩
  | failed _ _ ih => exact fun m hm => ⟨_, Nat.le_refl _, ih m hm⟩

/-- **Values are reached in the order of their positions, and of the bytes in front of them.** -/
theorem pairwise_isBefore (hs : e.Course t n h events n' h' r) :
    (visits events).Pairwise fun a b => a.IsBefore b.toMoment ∧ a.written ≤ b.written := by
  induction hs with
  | outOfBudget | done | refused => exact .nil
  | barred | declined => exact List.pairwise_singleton _ _
  | native _ _ _ hs ih =>
    refine List.pairwise_cons.2 ⟨fun m hm => ⟨?_, (hs.written_mem m hm).1⟩, ih⟩
    obtain ⟨j, -, hj⟩ := hs.covers m hm
    exact Moment.isBefore_of_part hj
  | answered _ _ _ _ _ hs ih =>
    refine List.pairwise_cons.2 ⟨fun m hm => ⟨?_, (hs.written_mem m hm).1⟩, ih⟩
    exact Moment.isBefore_of_part (hs.covers m hm)
  | part _ hw hs ihw ih =>
    rw [visits_append]
    refine List.pairwise_append.2 ⟨ihw, ih, fun a ha b hb => ⟨?_, ?_⟩⟩
    · obtain ⟨j, hij, hj⟩ := hs.covers b hb
      exact Moment.isBefore_of_parts hij (hw.covers a ha) hj
    · exact Nat.le_trans (hw.written_mem a ha).2 (hs.written_mem b hb).1
  | failed _ _ ih => exact ih

/-- **No two values are reached at one position.** -/
theorem nodup_position (hs : e.Course t n h events n' h' r) :
    ((visits events).map fun m => m.position).Nodup :=
  List.pairwise_map.2 (hs.pairwise_isBefore.imp fun h => h.1.position_ne)

/-- A value that is written is reached first of all. -/
theorem exists_cons_reached (hs : e.Course (.value m) n h events n' h' r)
    (hr : r ≠ some .outOfBudget) : ∃ rest, events = .reached ⟨m, n⟩ :: rest := by
  cases hs with
  | outOfBudget => exact absurd rfl hr
  | barred | native | declined | answered => exact ⟨_, rfl⟩

/-- Where nothing fails all parts of the value are reached. -/
theorem exists_visit_of_parts (hs : e.Course (.parts m i ps) n h events n' h' none) :
    ∀ j w, ps.values[j]? = some w → ∃ m' ∈ visits events, m'.toMoment = m.part (i + j) w := by
  generalize ht : Task.parts m i ps = t at hs
  generalize hr : (none : Option Stop) = r at hs
  induction hs generalizing i ps with
  | part _ hw _ _ ih =>
    cases ht
    rintro (_ | j) w hj
    · cases hj
      obtain ⟨rest, rfl⟩ := hw.exists_cons_reached nofun
      exact ⟨_, List.mem_cons_self, rfl⟩
    · obtain ⟨m', hm', he⟩ := ih rfl hr j w hj
      rw [visits_append]
      exact ⟨m', List.mem_append_right _ hm', by rw [he, Nat.add_right_comm, Nat.add_assoc]⟩
  | done =>
    cases ht
    exact fun _ _ hj => nomatch hj
  | outOfBudget | barred | native | declined | answered =>
    cases ht
  | refused | failed => cases hr

/-- **Where nothing fails, all parts of every value that is reached are reached.** -/
theorem exists_visit_of_part (hs : e.Course t n h events n' h' none) :
    ∀ m ∈ visits events, ∀ i w, (e.parts m.value).values[i]? = some w →
      ∃ m' ∈ visits events, m'.toMoment = m.part i w := by
  generalize hr : (none : Option Stop) = r at hs
  induction hs with
  | native _ _ _ hs ih =>
    subst hr
    refine List.forall_mem_cons.2 ⟨fun i w hw => ?_, fun m hm i w hw => ?_⟩
    · obtain ⟨m', hm', he⟩ := hs.exists_visit_of_parts i w hw
      rw [Nat.zero_add] at he
      exact ⟨m', List.mem_cons_of_mem _ hm', he⟩
    · obtain ⟨m', hm', he⟩ := ih rfl m hm i w hw
      exact ⟨m', List.mem_cons_of_mem _ hm', he⟩
  | answered _ hv _ _ _ _ ih =>
    refine List.forall_mem_cons.2 ⟨fun i w hw => ?_, fun m hm i w hw => ?_⟩
    · have hlevel := (standsIn_of_mem_parts (List.mem_of_getElem? hw)).2
      rw [needsHook_of_takesLevel hlevel] at hv
      cases hv
    · obtain ⟨m', hm', he⟩ := ih hr m hm i w hw
      exact ⟨m', List.mem_cons_of_mem _ hm', he⟩
  | done => exact List.forall_mem_nil _
  | part _ _ _ ihw ih =>
    rw [visits_append]
    refine List.forall_mem_append.2 ⟨fun m hm i w hw => ?_, fun m hm i w hw => ?_⟩
    · obtain ⟨m', hm', he⟩ := ihw rfl m hm i w hw
      exact ⟨m', List.mem_append_left _ hm', he⟩
    · obtain ⟨m', hm', he⟩ := ih hr m hm i w hw
      exact ⟨m', List.mem_append_right _ hm', he⟩
  | outOfBudget | barred | declined | refused | failed => cases hr

end Course

/-! ## Errors -/

/-- A value that goes on is not barred. -/
theorem not_bars {e : Encoder σ} {m : Moment} {x : EncodeError} (ho : m.isOpen = false)
    (hv : e.needsHook m.value = false)
    (hd : (e.form m.value).takesLevel = true → m.guards.depth < Limits.maxDepth) : ¬e.Bars m x := by
  rintro (ho' | ⟨-, hf, hd'⟩ | ⟨-, hv', -⟩ | ⟨-, hv', -, -⟩)
  · exact absurd (ho.symm.trans ho') nofun
  · exact absurd (hd hf) (Nat.not_lt.2 hd')
  · exact absurd (hv.symm.trans hv') nofun
  · exact absurd (hv.symm.trans hv') nofun

/-- **A value that is barred fails the encoding.** -/
theorem Course.eq_refused_of_bars {e : Encoder σ} {t : Task} {n n' : Nat} {h h' : σ}
    {events : List Event} {r : Option Stop} (hs : e.Course t n h events n' h' r) :
    ∀ m ∈ Event.visits events, ∀ x, e.Bars m.toMoment x → r = some (.refused x) := by
  induction hs with
  | outOfBudget | done | refused => exact List.forall_mem_nil _
  | barred hx => exact List.forall_mem_singleton.2 fun y hy => by rw [hx.unique hy]
  | native ho hv hd _ ih =>
    exact List.forall_mem_cons.2 ⟨fun _ hx => absurd hx (not_bars ho hv hd), ih⟩
  | declined ho hv hh hd _ =>
    refine List.forall_mem_singleton.2 fun x hx => ?_
    exact absurd (hx.asks_eq_false.symm.trans (asks_eq_true ho hv hh hd)) nofun
  | answered ho hv hh hd _ _ ih =>
    refine List.forall_mem_cons.2 ⟨fun x hx => ?_, ih⟩
    exact absurd (hx.asks_eq_false.symm.trans (asks_eq_true ho hv hh hd)) nofun
  | part _ _ _ ihw ih =>
    rw [Event.visits_append]
    refine List.forall_mem_append.2 ⟨fun m hm x hx => ?_, ih⟩
    cases ihw m hm x hx
  | failed _ _ ih => exact ih

/-- **A value that the hook has no answer for fails the encoding.** -/
theorem Course.eq_refused_of_declined {e : Encoder σ} {t : Task} {n n' : Nat} {h h' : σ}
    {events : List Event} {r : Option Stop} (hs : e.Course t n h events n' h' r) :
    ∀ v, .asked v none ∈ events → r = some (.refused (.unsupported v.typeName)) := by
  induction hs with
  | outOfBudget | done | refused | barred | declined => simp
  | native _ _ _ _ ih | answered _ _ _ _ _ _ ih => simpa using ih
  | part _ _ _ ihw ih =>
    intro v hv
    obtain hv | hv := List.mem_append.1 hv
    · cases ihw v hv
    · exact ih v hv
  | failed _ _ ih => exact ih

/-- Whether the error that the parts end with is the value's own. -/
def Task.EndsOwn : Task → Prop
  | .value _ => True
  | .parts _ _ rest => ∀ x, rest.error = some x → x.isOwn = true

/-- The last thing that happens is that a value is reached and refused with `x`, at once or since the
hook gave no answer. -/
def EndsWith (e : Encoder σ) (x : EncodeError) (events : List Event) : Prop :=
  ∃ m : Visit, [.reached m] <:+ events ∧ e.Bars m.toMoment x ∨
    [.reached m, .asked m.value none] <:+ events ∧ x = .unsupported m.value.typeName

theorem EndsWith.append {e : Encoder σ} {x : EncodeError} {b : List Event} (h : e.EndsWith x b)
    (a : List Event) : e.EndsWith x (a ++ b) := by
  obtain ⟨m, ⟨hb, hx⟩ | ⟨hb, hx⟩⟩ := h
  · exact ⟨m, .inl ⟨hb.trans (List.suffix_append a b), hx⟩⟩
  · exact ⟨m, .inr ⟨hb.trans (List.suffix_append a b), hx⟩⟩

/-- **Any other error is that of the value that is reached last.** -/
theorem Course.endsWith {e : Encoder σ} {t : Task} {n n' : Nat} {h h' : σ} {events : List Event}
    {x : EncodeError} (hs : e.Course t n h events n' h' (some (.refused x))) (ht : t.EndsOwn)
    (hx : x.isOwn = false) : e.EndsWith x events := by
  generalize hr : some (Stop.refused x) = r at hs
  induction hs with
  | barred hb =>
    cases hr
    exact ⟨_, .inl ⟨List.suffix_rfl, hb⟩⟩
  | declined =>
    cases hr
    exact ⟨_, .inr ⟨List.suffix_rfl, rfl⟩⟩
  | native _ _ _ _ ih => exact (ih (fun _ => isOwn_of_parts) hr).append [_]
  | answered _ _ _ _ _ _ ih => exact (ih trivial hr).append [_, _]
  | refused =>
    cases hr
    rw [ht _ rfl] at hx
    cases hx
  | part _ _ _ _ ih => exact (ih ht hr).append _
  | failed _ _ ih => exact ih trivial hr
  | outOfBudget | done => cases hr

/-- What holds of the values that come first in a task. -/
def Task.Holds (P : Moment → Prop) : Task → Prop
  | .value m => P m
  | .parts m i rest => ∀ j w, rest.values[j]? = some w → P (m.part (i + j) w)

/-- **What holds at the start and is kept by each step down holds of all values that are reached.** -/
theorem Course.forall_visits {e : Encoder σ} {t : Task} {n n' : Nat} {h h' : σ} {events : List Event}
    {r : Option Stop} {P : Moment → Prop} (hs : e.Course t n h events n' h' r)
    (hstep : ∀ {m m'}, P m → e.Steps m m' → P m') (ht : t.Holds P) :
    ∀ m ∈ Event.visits events, P m.toMoment := by
  induction hs with
  | outOfBudget | done | refused => exact List.forall_mem_nil _
  | barred | declined => exact List.forall_mem_singleton.2 ht
  | native ho _ hd _ ih =>
    refine List.forall_mem_cons.2 ⟨ht, ih fun j w hw => ?_⟩
    have hlevel := (standsIn_of_mem_parts (List.mem_of_getElem? hw)).2
    rw [Nat.zero_add]
    exact hstep ht (.part ho (hd hlevel) hw)
  | answered ho hv hh hd ha _ ih =>
    exact List.forall_mem_cons.2 ⟨ht, ih (hstep ht (.answer ho hv hh hd ha))⟩
  | part _ _ _ ihw ih =>
    rw [Event.visits_append]
    refine List.forall_mem_append.2 ⟨ihw (ht 0 _ rfl), ih fun j w hw => ?_⟩
    rw [Nat.add_right_comm, Nat.add_assoc]
    exact ht (j + 1) w hw
  | failed _ _ ih => exact ih (ht 0 _ rfl)

end Encoder

end JsonCodec
