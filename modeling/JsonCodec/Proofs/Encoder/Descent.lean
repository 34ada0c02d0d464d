/-
One step down from a value (`Encoder.Descends`) to one that stands in it (`Encoder.StandsIn`).

What is done with a value rests on what is done with the values that stand in it, each one step
further down (`Encoder.textWith_congr`). Each step takes some of the room that the guards leave, so
from some budget on more makes no difference (`Encoder.text_eq_of_room_lt`).
-/
import JsonCodec.Proofs.Encoder.Calls

namespace JsonCodec

variable {σ : Type}

/-- Whether the values inside stand a level deeper. -/
def Form.takesLevel : Form → Bool
  | .items _ | .members _ | .level _ => true
  | .leaf | .asked => false

/-- `w` is in value position in `v`. -/
inductive Encoder.StandsIn (e : Encoder σ) (v : Value) : Value → Prop
  | item {vs : List Value} {w : Value} (hf : e.form v = .items vs) (hw : w ∈ vs) : StandsIn e v w
  | member {ms : Members} {m : Value × Value} (hf : e.form v = .members ms) (hm : m ∈ ms) :
    StandsIn e v m.2
  /-- The content of a node, and what an application value stands for. -/
  | level {w : Value} (hf : e.form v = .level w) : StandsIn e v w
  | answer {w : Value} (hf : e.form v = .asked) : StandsIn e v w

/-- The values inside `v`, which is at the path `p`, are written at the path `q`. -/
inductive Encoder.Descends (e : Encoder σ) (p : Path) (v : Value) : Path → Prop
  | deeper (ho : ∀ i ∈ v.handle?, i ∉ p.opened) (hf : (e.form v).takesLevel = true)
    (hd : p.depth < Limits.maxDepth) : Descends e p v (p.into v).deeper
  | hooked (ho : ∀ i ∈ v.handle?, i ∉ p.opened) (hf : e.form v = .asked)
    (hd : p.hookDepth < Limits.maxHookDepth) : Descends e p v (p.into v).hooked

namespace Encoder

variable {e : Encoder σ} {recur recur' : Path → Value → TextM σ Bytes} {p : Path} {v : Value}

/-- What is inside a value is known from the texts one step further down. -/
theorem formText_congr (ho : ∀ i ∈ v.handle?, i ∉ p.opened)
    (h : ∀ q w, e.Descends p v q → recur q w = recur' q w) :
    e.formText recur (p.into v) v = e.formText recur' (p.into v) v := by
  have hdeeper (hf : (e.form v).takesLevel = true) (hd : (p.into v).depth < Limits.maxDepth) :
      recur (p.into v).deeper = recur' (p.into v).deeper :=
    funext fun w => h _ w (.deeper ho hf (by rwa [Path.depth_into] at hd))
  have hhooked (hf : e.form v = .asked) (hd : (p.into v).hookDepth < Limits.maxHookDepth) :
      recur (p.into v).hooked = recur' (p.into v).hooked :=
    funext fun w => h _ w (.hooked ho hf (by rwa [Path.hookDepth_into] at hd))
  rw [formText, formText]
  cases hf : e.form v with
  | leaf => rfl
  | items _ | members _ =>
    rw [hf] at hdeeper
    by_cases hd : (p.into v).depth < Limits.maxDepth
    · simp only [arrayText, objectText, hdeeper rfl hd]
    · simp only [arrayText, objectText, containerText_of_ge (Nat.le_of_not_lt hd)]
  | level _ =>
    rw [hf] at hdeeper
    simp only [deeperText]
    split
    · next hd => rw [hdeeper rfl hd]
    · rfl
  | asked =>
    simp only [replacedText]
    split
    · rfl
    · split
      · rfl
      · next hd => rw [hhooked hf (Nat.lt_of_not_le hd)]

/-- The text of a value is known from the texts one step further down. -/
theorem textWith_congr (h : ∀ q w, e.Descends p v q → recur q w = recur' q w) :
    e.textWith recur p v = e.textWith recur' p v := by
  have hinside (ho : ∀ i ∈ v.handle?, i ∉ p.opened) :
      e.formText recur (p.into v) v = e.formText recur' (p.into v) v := formText_congr ho h
  rw [Path.into] at hinside
  rw [textWith_eq_form, textWith_eq_form, openedText, openedText]
  cases hv : v.handle? with
  | none =>
    simp only [hv] at hinside
    exact hinside fun _ hi => absurd hi (Option.not_mem_none _)
  | some i =>
    simp only [hv, openingText] at hinside ⊢
    split
    · rfl
    · next hi =>
      refine hinside fun j hj => ?_
      cases hj
      exact hi

/-! ## More budget -/

/-- Each step down takes some of the room. -/
theorem Descends.room_lt {e : Encoder σ} {q : Path} (h : e.Descends p v q) : q.room < p.room := by
  have hdepth : (p.into v).depth = p.depth := p.depth_into v
  have hhook : (p.into v).hookDepth = p.hookDepth := p.hookDepth_into v
  cases h with
  | deeper _ _ hd =>
    simp only [Path.room, Path.deeper]
    omega
  | hooked _ _ hd =>
    simp only [Path.room, Path.hooked]
    omega

/-- **Where there is more budget than room, still more makes no difference.** -/
theorem text_eq_of_room_lt (e : Encoder σ) {m n : Nat} (hm : p.room < m) (hn : p.room < n)
    (v : Value) : e.text m p v = e.text n p v := by
  induction m generalizing n p v with
  | zero => exact absurd hm (Nat.not_lt_zero _)
  | succ m ih =>
    obtain ⟨n, rfl⟩ : ∃ k, n = k + 1 := ⟨n - 1, by omega⟩
    refine textWith_congr fun q w hq => ?_
    have hroom := hq.room_lt
    exact ih (by omega) (by omega) w

end Encoder

end JsonCodec
