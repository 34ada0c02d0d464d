/-
What holds at all moments of a run. Whenever a value is about to be written, the log has which values
are being written around it, and what the guards say (`Moment`). What holds at the top and is kept by
each step down holds at all moments (`recordedRun_holds`).

So at no moment are more values being written inside one another than there are levels and answers
of the hook, and the encoder ends, though nothing in the values gets smaller (`value_nested_le`).
-/
import JsonCodec.Proofs.Encoder.Logged

namespace JsonCodec

variable {σ : Type}

namespace Encoder

/-- **The log changes nothing, and what holds at the top and is kept by each step down holds at all
moments.** -/
theorem recordedRun_holds (e : Encoder σ) {P : Moment → Prop} {v : Value}
    (hstep : ∀ {m m'}, P m → e.Steps m m' → P m') (hp : P (.top v)) (budget : Nat)
    (out : Array UInt8) (h : σ) :
    (e.recordedRun budget v out h).1 =
        WriteM.ending ((e.value budget v).run { out := out, hookState := h }) ∧
      ∀ m ∈ (e.recordedRun budget v out h).2, P m := by
  have hrun := e.logged_run budget v out h
  rw [recordedRun]
  generalize (e.loggedValue budget v).run _ = x at hrun ⊢
  generalize (e.value budget v).run _ = y at hrun ⊢
  cases hrun with
  | ok hs => exact ⟨rfl, List.forall_mem_map.2 (hs.forall_visits hstep hp)⟩
  | @error stop s events he hs =>
    have hmoments : s.moments = (Event.visits events).map Visit.toMoment := by
      rw [Session.moments, he, List.nil_append]
    refine ⟨rfl, ?_⟩
    simp only [hmoments]
    exact List.forall_mem_map.2 (hs.forall_visits hstep hp)

/-! ## How many are inside one another -/

/-- Around a value there are as many as levels are open and answers of the hook stand around it. -/
def Nested (around : List Value) (p : Path) : Prop :=
  around.length = p.depth + p.hookDepth ∧ p.depth ≤ Limits.maxDepth ∧
    p.hookDepth ≤ Limits.maxHookDepth

theorem Nested.descend {e : Encoder σ} {around : List Value} {p q : Path} {v : Value}
    (h : Nested around p) (hq : e.Descends p v q) : Nested (v :: around) q := by
  obtain ⟨hlength, hdepth, hhook⟩ := h
  have hpath : (p.into v).depth = p.depth ∧ (p.into v).hookDepth = p.hookDepth :=
    ⟨p.depth_into v, p.hookDepth_into v⟩
  cases hq with
  | deeper _ _ hd =>
    simp only [Nested, Path.deeper, hpath, List.length_cons]
    omega
  | hooked _ _ hd =>
    simp only [Nested, Path.hooked, hpath, List.length_cons]
    omega

/-- From the budget on, a run ends the same whatever the budget. -/
theorem ending_value_add (e : Encoder σ) (n : Nat) (v : Value) (out : Array UInt8) (h : σ) :
    WriteM.ending ((e.value (budget + n) v).run { out := out, hookState := h }) =
      WriteM.ending ((e.value budget v).run { out := out, hookState := h }) := by
  have hroom : Path.room {} < budget := by decide
  have htext := e.text_eq_of_room_lt (Nat.lt_add_right n hroom) hroom v
  have hmore := e.emits_value (budget + n) {} v out h
  have hval := e.emits_value budget {} v out h
  have hstart : Path.session {} out h = { out := out, hookState := h } := rfl
  rw [hstart, htext] at hmore
  rw [hstart] at hval
  rw [EStateM.run, EStateM.run]
  cases hu : e.text budget {} v h with
  | ok b k₁ =>
    simp only [hu] at hmore hval
    rw [hmore, hval]
  | error y k₁ =>
    simp only [hu] at hmore hval
    obtain ⟨s, _, hs, hk, -⟩ := hmore
    obtain ⟨s', _, hs', hk', -⟩ := hval
    rw [hs, hs']
    simp only [WriteM.ending, hk, hk']

/-- **Whatever the graph, the options and the hook, an encoding ends, with an error or without. More
budget makes no difference to it, and at no moment are more values being written inside one another
than one, the levels there may be and the answers of the hook there may be.** -/
theorem value_nested_le (e : Encoder σ) (v : Value) (out : Array UInt8) (h : σ) :
    let run (n : Nat) := (e.value n v).run { out := out, hookState := h }
    ((∃ s, run budget = .ok () s) ∨ ∃ error s, run budget = .error (.refused error) s) ∧
      ∀ n, WriteM.ending (run (budget + n)) = WriteM.ending (run budget) ∧
        (e.recordedRun n v out h).1 = WriteM.ending (run n) ∧
        ∀ m ∈ (e.recordedRun n v out h).2, (m.value :: m.around).length ≤ 1 + 1024 + 254 := by
  intro run
  have htop : Nested [] {} := ⟨rfl, Nat.zero_le _, Nat.zero_le _⟩
  refine ⟨?_, fun n => ⟨e.ending_value_add n v out h, ?_⟩⟩
  · cases hrun : run budget with
    | ok _ s => exact .inl ⟨s, rfl⟩
    | error stop s =>
      cases stop with
      | refused error => exact .inr ⟨error, s, rfl⟩
      | outOfBudget => exact absurd hrun (e.value_ne_outOfBudget v out h s)
  · obtain ⟨hrun, hmoments⟩ := e.recordedRun_holds (P := fun m => Nested m.around m.guards)
      (fun hm hs => hs.around_eq ▸ hm.descend hs.descends) htop n out h
    refine ⟨hrun, fun m hm => ?_⟩
    obtain ⟨hlength, hdepth, hhook⟩ := hmoments m hm
    have hdepth : m.guards.depth ≤ 1024 := hdepth
    have hhook : m.guards.hookDepth ≤ 254 := hhook
    simp only [List.length_cons]
    omega

end Encoder

end JsonCodec
