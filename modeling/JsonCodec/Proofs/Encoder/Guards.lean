/-
What the guards say in the course of an encoding. A value that has been written leaves them as they
were (`Encoder.guards_eq_of_value`), though they are set back in many places and, after an error, in
none. So whenever a value is about to be written they say what is around it (`Moment.IsGuarded`): how
many levels, how many answers of the hook, and which handles, none of them twice.
-/
import JsonCodec.Proofs.Encoder.Record

namespace JsonCodec

variable {σ : Type}

namespace Encoder

/-- Whether the values in a value stand a level deeper than it does: those of an array, an object
(which the fields of an application value are too), a node, and an application value that stands for
another. -/
def opensLevel (e : Encoder σ) : Value → Bool
  | .array _ | .object _ | .shared _ => true
  | .foreign id _ =>
    (e.graph.enumValue id).isSome ||
      !e.options.passthroughDataclass && (e.graph.fields id).isSome
  | _ => false

theorem takesLevel_form (e : Encoder σ) (v : Value) : (e.form v).takesLevel = e.opensLevel v := by
  cases v with
  | foreign id name =>
    rw [form, opensLevel, fields?]
    cases e.graph.enumValue id with
    | some w => rfl
    | none =>
      cases e.options.passthroughDataclass with
      | true => rfl
      | false => cases e.graph.fields id <;> rfl
  | dateTime _ | date _ | time _ =>
    rw [form]
    cases e.options.passthroughDatetime <;> rfl
  | _ => rfl

end Encoder

/-- The guards say what is around a value in its place: the levels, of which there are not too many,
the answers of the hook, of which there are not too many either, and the handles, which differ. -/
structure Moment.IsGuarded (e : Encoder σ) (top : Value) (m : Moment) : Prop
    extends m.IsPlaced e top where
  depth : m.guards.depth = m.around.countP e.opensLevel
  depth_le : m.guards.depth ≤ Limits.maxDepth
  hookDepth_le : m.guards.hookDepth ≤ Limits.maxHookDepth
  nodup : m.guards.opened.Nodup

namespace Moment.IsGuarded

variable {e : Encoder σ} {top : Value} {m m' : Moment}

theorem start (e : Encoder σ) (top : Value) : IsGuarded e top (.top top) where
  path := .singleton _
  top := rfl
  opened := rfl
  hookDepth := rfl
  depth := rfl
  depth_le := Nat.zero_le _
  hookDepth_le := Nat.zero_le _
  nodup := .nil

/-- **A step down keeps it.** -/
theorem step (h : m.IsGuarded e top) (hs : e.Steps m m') : m'.IsGuarded e top := by
  obtain ⟨hplaced, hdepth, hdepth_le, hhook_le, hnodup⟩ := h
  have hplace := hplaced.step hs
  have hclosed : ∀ i ∈ m.value.handle?, i ∉ m.guards.opened := by
    cases hs with
    | part ho _ _ | answer ho _ _ _ _ => exact Moment.isOpen_eq_false_iff.1 ho
  have hopened : m.inside.opened.Nodup := by
    rw [Moment.inside, Path.opened_into]
    cases hv : m.value.handle? with
    | none => exact hnodup
    | some i => exact List.nodup_cons.2 ⟨hclosed i hv, hnodup⟩
  have hinto : m.inside.depth = m.around.countP e.opensLevel := by
    rw [Moment.inside, Path.depth_into]
    exact hdepth
  cases hs with
  | part _ hd hw =>
    have hlevel := (Encoder.standsIn_of_mem_parts (List.mem_of_getElem? hw)).2
    rw [e.takesLevel_form] at hlevel
    refine ⟨hplace, ?_, ?_, ?_, hopened⟩
    · exact (congrArg (· + 1) hinto).trans (List.countP_cons_of_pos hlevel).symm
    · rwa [← m.guards.depth_into m.value] at hd
    · rwa [← m.guards.hookDepth_into m.value] at hhook_le
  | answer _ hv _ hd _ =>
    have hlevel : ¬e.opensLevel m.value = true := by
      rw [← e.takesLevel_form, (e.form_eq_asked_iff _).2 hv]
      exact Bool.false_ne_true
    refine ⟨hplace, ?_, ?_, ?_, hopened⟩
    · exact hinto.trans (List.countP_cons_of_neg hlevel).symm
    · rwa [← m.guards.depth_into m.value] at hdepth_le
    · rwa [← m.guards.hookDepth_into m.value] at hd

end Moment.IsGuarded

namespace Encoder

/-- Under the fixed limit a session is known from what its guards say, its buffer and its hook. -/
theorem session_guards {s : Session σ} (hmax : s.depth.max = Limits.maxDepth) :
    s.guards.session s.out s.hookState = s := by
  obtain ⟨out, ⟨current, max⟩, opened, hookDepth, hookState⟩ := s
  cases hmax
  rfl

/-- **A value that has been written leaves the guards as they were.** -/
theorem guards_eq_of_value {e : Encoder σ} {n : Nat} {v : Value} {s s' : Session σ}
    (hmax : s.depth.max = Limits.maxDepth) (h : (e.value n v).run s = .ok () s') :
    s'.depth = s.depth ∧ s'.opened = s.opened ∧ s'.hookDepth = s.hookDepth := by
  have hvalue := e.emits_value n s.guards v s.out s.hookState
  rw [session_guards hmax] at hvalue
  cases ht : e.text n s.guards v s.hookState with
  | ok b h' =>
    simp only [ht] at hvalue
    cases hvalue.symm.trans h
    rw [← session_guards hmax]
    exact ⟨rfl, rfl, rfl⟩
  | error x h' =>
    simp only [ht] at hvalue
    obtain ⟨s₁, _, hs, -⟩ := hvalue
    cases hs.symm.trans h

/-- **Whatever the graph, the options and the hook, any value that is written leaves the guards as they
were, and whenever a value is about to be written, in a run that fails too, they say what is around
it.** -/
theorem value_guards (e : Encoder σ) (v : Value) (out : Array UInt8) (h : σ) :
    (∀ n w s s', s.depth.max = Limits.maxDepth → (e.value n w).run s = .ok () s' →
        s'.depth = s.depth ∧ s'.opened = s.opened ∧ s'.hookDepth = s.hookDepth) ∧
      ∀ n, (e.recordedRun n v out h).1 =
          WriteM.ending ((e.value n v).run { out := out, hookState := h }) ∧
        ∀ m ∈ (e.recordedRun n v out h).2, m.IsGuarded e v :=
  ⟨fun _ _ _ _ => guards_eq_of_value,
    fun n => e.recordedRun_holds Moment.IsGuarded.step (.start e v) n out h⟩

end Encoder

end JsonCodec
