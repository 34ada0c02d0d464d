/-
A run with a log of the values that are reached and of the calls of the hook. The log changes nothing,
and what it tells is the course of the encoding (`Encoder.logs_value`, `Encoder.encodeInto_course`).

The log counts the values that are reached in each value that is being written, so that it has the
position of each. What is shown of a step is that with the log it does what it does without, and
adds a part of a course to the log (`Logs`). Steps that concern no value are silent. So the parts of a
value are put one behind another, and the steps of a value, in each of its forms
(`Encoder.dispatch_eq_form`), around its parts.
-/
import Mathlib.Logic.Relation
import JsonCodec.Proofs.Encoder.Course

namespace JsonCodec

open Ascii

variable {σ : Type}

/-- What is kept in the course of a run. -/
structure Log where
  /-- The values that are being written, the innermost first. -/
  around : List Value := []
  /-- The position of the value that is reached next, the last number first. -/
  next : List Nat := []
  events : List Event := []

namespace Log

/-- A value is about to be written. -/
def reach (l : Log) (v : Value) (guards : Path) (written : Nat) : Log where
  around := v :: l.around
  next := 0 :: l.next
  events := l.events ++ [.reached ⟨⟨v, l.around, guards, l.next.reverse⟩, written⟩]

/-- The innermost value has been written, and the one behind it is the next. -/
def finish (l : Log) : Log :=
  { l with around := l.around.tail, next := l.next.tail.modifyHead (· + 1) }

end Log

/-- The hook, with a log of its calls beside its state. -/
def Hook.logged (hook : Hook σ) : Hook (σ × Log) := fun v s =>
  (((hook v).run s.1).1, ((hook v).run s.1).2,
    { s.2 with events := s.2.events ++ [.asked v ((hook v).run s.1).1] })

/-- What the guards of a session say. -/
def Session.guards (s : Session σ) : Path := ⟨s.depth.current, s.opened.active, s.hookDepth⟩

/-- The session without the log. -/
def Session.unlogged (s : Session (σ × Log)) : Session σ := { s with hookState := s.hookState.1 }

/-- The moments in the log of a session. -/
def Session.moments (s : Session (σ × Log)) : List Moment :=
  (Event.visits s.hookState.2.events).map Visit.toMoment

namespace WriteM

def reach (v : Value) : WriteM (σ × Log) Unit :=
  modify fun s =>
    { s with hookState := (s.hookState.1, s.hookState.2.reach v s.guards s.out.size) }

def finish : WriteM (σ × Log) Unit :=
  modify fun s => { s with hookState := (s.hookState.1, s.hookState.2.finish) }

/-- How a run ended, without the buffer of one that failed. -/
def ending : EStateM.Result Stop (Session σ) Unit → Except (Stop × σ) (Session σ)
  | .ok _ s => .ok s
  | .error stop s => .error (stop, s.hookState)

end WriteM

namespace Encoder

/-- The encoder with a log of the calls of its hook. -/
def logged (e : Encoder σ) : Encoder (σ × Log) := ⟨e.options, e.graph, e.hook.map Hook.logged⟩

/-- Writes as `value` does, and logs it. -/
def loggedValue (e : Encoder σ) : (budget : Nat) → Value → WriteM (σ × Log) Unit
  | 0, _ => throw .outOfBudget
  | budget + 1, v => do
    WriteM.reach v
    e.logged.dispatch (e.loggedValue budget) v
    WriteM.finish

/-- How a run ended, and all its moments. -/
def recordedRun (e : Encoder σ) (budget : Nat) (v : Value) (out : Array UInt8) (h : σ) :
    Except (Stop × σ) (Session σ) × List Moment :=
  match (e.loggedValue budget v).run { out := out, hookState := (h, {}) } with
  | .ok _ s => (.ok s.unlogged, s.moments)
  | .error stop s => (.error (stop, s.hookState.1), s.moments)

/-- Encodes as `encodeInto` does, and tells what happened. -/
def loggedEncode (e : Encoder σ) (v : Value) (out : Array UInt8) (h : σ) :
    Outcome σ × List Event :=
  match (e.loggedValue budget v).run { out := out, hookState := (h, {}) } with
  | .ok _ s => (⟨none, if e.options.appendNewline then s.out.push lineFeed else s.out,
      s.hookState.1⟩, s.hookState.2.events)
  | .error stop s => (⟨some stop.error, s.out.take out.size, s.hookState.1⟩, s.hookState.2.events)

end Encoder

theorem Stop.refused_injective : Function.Injective Stop.refused := fun _ _ => Stop.refused.inj

/-! ## The hook in a session -/

theorem Hook.run_logged {hook : Hook σ} {v : Value} {h h' : σ} {answer : Option Value}
    (ha : (hook v).run h = (answer, h')) (l : Log) : (hook.logged v).run (h, l) =
      (answer, h', { l with events := l.events ++ [.asked v answer] }) := by
  have hrun : (hook.logged v).run (h, l) = (((hook v).run h).1, ((hook v).run h).2,
      { l with events := l.events ++ [.asked v ((hook v).run h).1] }) := rfl
  rw [hrun, ha]

namespace Encoder

section Replaced

variable {e : Encoder σ} {recur : Value → WriteM σ Unit} {hook : Hook σ} {p : Path} {v w : Value}
  {out : Array UInt8} {h h' : σ}

theorem replaced_of_none (hh : e.hook = none) : e.replaced recur v (p.session out h) =
    .error (.refused (.unsupported v.typeName)) (p.session out h) := by
  rw [replaced, hh]
  rfl

theorem replaced_of_le (hh : e.hook = some hook) (hd : Limits.maxHookDepth ≤ p.hookDepth) :
    e.replaced recur v (p.session out h) =
      .error (.refused .hookRecursionLimit) (p.session out h) := by
  rw [replaced, hh]
  simp only [Bind.bind, EStateM.bind, WriteM.get_apply, Path.session, if_pos hd]
  rfl

theorem ask_of_run {answer : Option Value} (ha : (hook v).run h = (answer, h')) :
    (WriteM.ask hook v : WriteM σ _) (p.session out h) = .ok answer (p.session out h') := by
  have hask : (WriteM.ask hook v : WriteM σ _) (p.session out h) =
      .ok ((hook v).run h).1 (p.session out ((hook v).run h).2) := rfl
  rw [hask, ha]

theorem replaced_of_declined (hh : e.hook = some hook) (hd : p.hookDepth < Limits.maxHookDepth)
    (ha : (hook v).run h = (none, h')) : e.replaced recur v (p.session out h) =
      .error (.refused (.unsupported v.typeName)) (p.session out h') := by
  have hdepth : ¬Limits.maxHookDepth ≤ (p.session out h).hookDepth := Nat.not_le.2 hd
  rw [replaced, hh]
  simp only [Bind.bind, EStateM.bind, WriteM.get_apply, if_neg hdepth, ask_of_run ha]
  rfl

theorem replaced_of_answered (hh : e.hook = some hook) (hd : p.hookDepth < Limits.maxHookDepth)
    (ha : (hook v).run h = (some w, h')) : e.replaced recur v (p.session out h) =
      (do WriteM.enterHook; recur w; WriteM.exitHook) (p.session out h') := by
  have hdepth : ¬Limits.maxHookDepth ≤ (p.session out h).hookDepth := Nat.not_le.2 hd
  rw [replaced, hh]
  simp only [Bind.bind, EStateM.bind, WriteM.get_apply, if_neg hdepth, ask_of_run ha]

end Replaced

end Encoder

/-! ## Where a run is -/

/-- What is known of a run between two steps. -/
structure Spot where
  guards : Path
  around : List Value
  next : List Nat

namespace Spot

/-- The session there. -/
def session (s : Spot) (out : Array UInt8) (h : σ) (events : List Event) : Session (σ × Log) :=
  s.guards.session out (h, ⟨s.around, s.next, events⟩)

/-- Behind the value that is next. -/
def past (s : Spot) : Spot := { s with next := s.next.modifyHead (· + 1) }

end Spot

namespace Moment

/-- In front of the value. -/
def spot (m : Moment) : Spot := ⟨m.guards, m.around, m.position.reverse⟩

/-- Inside the value, at the path `q` and in front of the `i`-th part. -/
def within (m : Moment) (q : Path) (i : Nat) : Spot :=
  ⟨q, m.value :: m.around, i :: m.position.reverse⟩

theorem spot_part (m : Moment) (i : Nat) (w : Value) :
    (m.part i w).spot = m.within m.inside.deeper i := by
  rw [spot, within, part, List.reverse_append]
  rfl

theorem spot_answer (m : Moment) (w : Value) :
    (m.answer w).spot = m.within m.inside.hooked 0 := by
  rw [spot, within, answer, List.reverse_append]
  rfl

end Moment

/-! ## Steps of a course -/

/-- A part of a run: places in the buffer and states of the hook before and behind it, what is logged,
and its error. -/
abbrev CoursePart (σ : Type) := Nat → σ → List Event → Nat → σ → Option Stop → Prop

/-- Something may be written, and nothing else happens. -/
inductive Silent : CoursePart σ
  | writes {n n' : Nat} {h : σ} (hn : n ≤ n') : Silent n h [] n' h none

/-- How a step to a spot ends with the log and without, where `C` is to hold of the part that is
logged. -/
inductive Logged (C : CoursePart σ) (before : List Event) (t : Spot) (n : Nat) (h : σ) :
    EStateM.Result Stop (Session (σ × Log)) Unit → EStateM.Result Stop (Session σ) Unit → Prop
  | ok {out' : Array UInt8} {h' : σ} {events : List Event} (hc : C n h events out'.size h' none) :
    Logged C before t n h (.ok () (t.session out' h' (before ++ events)))
      (.ok () (t.guards.session out' h'))
  | error {x : Stop} {s : Session (σ × Log)} {events : List Event}
    (hs : s.hookState.2.events = before ++ events)
    (hc : C n h events s.out.size s.hookState.1 (some x)) :
    Logged C before t n h (.error x s) (.error x s.unlogged)

/-- From the spot `s` on, `m` does what `k` does and comes to the spot `t`; and it logs a part of a
run, of which `C` holds. -/
def Logs (C : CoursePart σ) (s t : Spot) (m : WriteM (σ × Log) Unit) (k : WriteM σ Unit) : Prop :=
  ∀ out h before, Logged C before t out.size h (m (s.session out h before))
    (k (s.guards.session out h))

/-- What is logged behind other events. -/
theorem Logged.behind {C C' : CoursePart σ} {before events : List Event} {t : Spot} {n n₁ : Nat}
    {h h₁ : σ} {x : EStateM.Result Stop (Session (σ × Log)) Unit}
    {y : EStateM.Result Stop (Session σ) Unit} (hl : Logged C (before ++ events) t n₁ h₁ x y)
    (hc : ∀ {events' n' h' r}, C n₁ h₁ events' n' h' r → C' n h (events ++ events') n' h' r) :
    Logged C' before t n h x y := by
  cases hl with
  | ok h =>
    rw [List.append_assoc]
    exact .ok (hc h)
  | error hs h =>
    rw [List.append_assoc] at hs
    exact .error hs (hc h)

namespace Logs

open WriteM

variable {A B C : CoursePart σ} {s t u : Spot} {p q : Path} {m m' : WriteM (σ × Log) Unit}
  {k k' : WriteM σ Unit} {e : Encoder σ} {task : Encoder.Task} {around : List Value}
  {next : List Nat}

theorem mono (hm : Logs A s t m k)
    (hc : ∀ {n h events n' h' r}, A n h events n' h' r → C n h events n' h' r) :
    Logs C s t m k := by
  intro out h before
  have hl := hm out h before
  generalize m (s.session out h before) = x at hl ⊢
  generalize k (s.guards.session out h) = y at hl ⊢
  cases hl with
  | ok h => exact .ok (hc h)
  | error hs h => exact .error hs (hc h)

/-- One step behind another. -/
theorem bind (hm : Logs A s t m k) (hk : Logs B t u m' k')
    (hok : ∀ {n h a n₁ h₁ b n' h' r}, A n h a n₁ h₁ none → B n₁ h₁ b n' h' r →
      C n h (a ++ b) n' h' r)
    (herror : ∀ {n h a n' h' x}, A n h a n' h' (some x) → C n h a n' h' (some x)) :
    Logs C s u (m >>= fun _ => m') (k >>= fun _ => k') := by
  intro out h before
  have hl := hm out h before
  simp only [Bind.bind, EStateM.bind]
  generalize m (s.session out h before) = x at hl ⊢
  generalize k (s.guards.session out h) = y at hl ⊢
  cases hl with
  | ok ha => exact (hk _ _ _).behind fun hb => hok ha hb
  | error hs ha => exact .error hs (herror ha)

/-- A step that writes, and may change the path. -/
theorem write {f : Array UInt8 → Array UInt8}
    (hm : ∀ out l, m (p.session out l) = .ok () (q.session (f out) l))
    (hk : ∀ out h, k (p.session out h) = .ok () (q.session (f out) h))
    (hf : ∀ out, out.size ≤ (f out).size) : Logs Silent ⟨p, around, next⟩ ⟨q, around, next⟩ m k := by
  intro out h before
  have hm' : m (Spot.session ⟨p, around, next⟩ out h before) =
      .ok () (Spot.session ⟨q, around, next⟩ (f out) h (before ++ [])) := by
    rw [List.append_nil]
    exact hm out _
  rw [hm', hk]
  exact .ok (.writes (hf out))

/-- An error in which no value has a part. -/
theorem refused {x : EncodeError}
    (hm : ∀ out l, m (p.session out l) = .error (.refused x) (p.session out l))
    (hk : ∀ out h, k (p.session out h) = .error (.refused x) (p.session out h))
    (hc : ∀ {n h}, C n h [] n h (some (.refused x))) : Logs C ⟨p, around, next⟩ t m k := by
  intro out h before
  have hm' : m (Spot.session ⟨p, around, next⟩ out h before) =
      .error (.refused x) (Spot.session ⟨p, around, next⟩ out h before) := hm out _
  rw [hm', hk]
  exact .error (List.append_nil _).symm hc

/-! ## Steps that concern no value -/

theorem nothing :
    Logs Silent ⟨p, around, next⟩ ⟨p, around, next⟩ (pure ()) (pure () : WriteM σ Unit) :=
  write (f := id) (fun _ _ => rfl) (fun _ _ => rfl) fun _ => Nat.le_refl _

theorem append (bytes : Bytes) : Logs Silent ⟨p, around, next⟩ ⟨p, around, next⟩
    (WriteM.append bytes) (WriteM.append bytes : WriteM σ Unit) :=
  write (f := (· ++ bytes)) (fun _ _ => rfl) (fun _ _ => rfl) fun out => by
    simp [← Array.length_toList]

theorem push (b : UInt8) : Logs Silent ⟨p, around, next⟩ ⟨p, around, next⟩
    (WriteM.push b) (WriteM.push b : WriteM σ Unit) :=
  write (f := (·.push b)) (fun _ _ => rfl) (fun _ _ => rfl) fun out => by simp

theorem exitLevel : Logs Silent ⟨p.deeper, around, next⟩ ⟨p, around, next⟩
    WriteM.exitLevel (WriteM.exitLevel : WriteM σ Unit) :=
  write (f := id) (fun _ _ => rfl) (fun _ _ => rfl) fun _ => Nat.le_refl _

theorem silent_silent (hm : Logs Silent s t m k) (hk : Logs Silent t u m' k') :
    Logs Silent s u (m >>= fun _ => m') (k >>= fun _ => k') := by
  refine hm.bind hk ?_ nofun
  rintro _ _ _ _ _ _ _ _ _ ⟨ha⟩ ⟨hb⟩
  exact .writes (Nat.le_trans ha hb)

/-- What is written in front of a part. -/
theorem silent_parts {d : Moment} {i : Nat} {ps : Parts} (hm : Logs Silent s t m k)
    (hk : Logs (e.Course (.parts d i ps)) t u m' k') :
    Logs (e.Course (.parts d i ps)) s u (m >>= fun _ => m') (k >>= fun _ => k') := by
  refine hm.bind hk ?_ nofun
  rintro _ _ _ _ _ _ _ _ _ ⟨hn⟩ hs
  exact hs.of_le hn

/-- What is written behind the last part. -/
theorem parts_silent (hm : Logs (e.Course task) s t m k) (hk : Logs Silent t u m' k') :
    Logs (e.Course task) s u (m >>= fun _ => m') (k >>= fun _ => k') := by
  refine hm.bind hk ?_ id
  rintro _ _ _ _ _ _ _ _ _ hs ⟨hn⟩
  rw [List.append_nil]
  exact hs.to_le hn

/-- A part, and those behind it. -/
theorem value_parts {d : Moment} {i : Nat} {w : Value} {rest : List Value} {x : Option EncodeError}
    (hm : Logs (e.Course (.value (d.part i w))) s t m k)
    (hk : Logs (e.Course (.parts d (i + 1) ⟨rest, x⟩)) t u m' k') :
    Logs (e.Course (.parts d i ⟨w :: rest, x⟩)) s u (m >>= fun _ => m') (k >>= fun _ => k') :=
  hm.bind hk (fun hw hs => .part (Nat.le_refl _) hw hs) (fun hw => .failed (Nat.le_refl _) hw)

/-- No part is left. -/
theorem no_parts {d : Moment} {i : Nat} (h : Logs Silent s t m k) :
    Logs (e.Course (.parts d i ⟨[], none⟩)) s t m k :=
  h.mono fun ⟨hn⟩ => .done hn

/-- A value that is computed without the session. -/
theorem lift_bind {α : Type} {x : Except EncodeError α} {f : α → WriteM (σ × Log) Unit}
    {g : α → WriteM σ Unit}
    (hok : ∀ a, x = .ok a → Logs C ⟨p, around, next⟩ t (f a) (g a))
    (herror : ∀ y, x = .error y → ∀ {n h}, C n h [] n h (some (.refused y))) :
    Logs C ⟨p, around, next⟩ t (WriteM.lift x >>= f) (WriteM.lift x >>= g) := by
  cases x with
  | ok a => exact hok a rfl
  | error y => exact refused (fun _ _ => rfl) (fun _ _ => rfl) (herror y rfl)

/-! ## Steps along the path -/

/-- A step along the path, in front of another. -/
theorem step_bind (hm : ∀ out l, m (p.session out l) = .ok () (q.session out l))
    (hk : ∀ out h, k (p.session out h) = .ok () (q.session out h))
    (h : Logs C ⟨q, around, next⟩ t m' k') :
    Logs C ⟨p, around, next⟩ t (m >>= fun _ => m') (k >>= fun _ => k') := by
  intro out h₀ before
  have hm' : m (Spot.session ⟨p, around, next⟩ out h₀ before) =
      .ok () (Spot.session ⟨q, around, next⟩ out h₀ before) := hm out _
  simp only [Bind.bind, EStateM.bind, hm', hk]
  exact h out h₀ before

/-- A step along the path, behind another. -/
theorem bind_step (h : Logs C s ⟨p, around, next⟩ m k)
    (hm : ∀ out l, m' (p.session out l) = .ok () (q.session out l))
    (hk : ∀ out h, k' (p.session out h) = .ok () (q.session out h)) :
    Logs C s ⟨q, around, next⟩ (m >>= fun _ => m') (k >>= fun _ => k') := by
  intro out h₀ before
  have hl := h out h₀ before
  simp only [Bind.bind, EStateM.bind]
  generalize m (s.session out h₀ before) = x at hl ⊢
  generalize k (s.guards.session out h₀) = y at hl ⊢
  cases hl with
  | @ok out' h' events hc =>
    have hm' : m' (Spot.session ⟨p, around, next⟩ out' h' (before ++ events)) =
        .ok () (Spot.session ⟨q, around, next⟩ out' h' (before ++ events)) := hm _ _
    have hk' : k' (p.session out' h') = .ok () (q.session out' h') := hk _ _
    simp only [hm', hk']
    exact .ok hc
  | error hs hc => exact .error hs hc

theorem enterLevel_bind (h : p.depth < Limits.maxDepth → Logs C ⟨p.deeper, around, next⟩ t m k)
    (hc : Limits.maxDepth ≤ p.depth → ∀ {n h}, C n h [] n h (some (.refused .recursionLimit))) :
    Logs C ⟨p, around, next⟩ t (enterLevel >>= fun _ => m) (enterLevel >>= fun _ => k) := by
  by_cases hd : p.depth < Limits.maxDepth
  · exact step_bind (fun _ _ => enterLevel_of_lt hd) (fun _ _ => enterLevel_of_lt hd) (h hd)
  · refine refused (fun _ _ => ?_) (fun _ _ => ?_) (hc (Nat.le_of_not_lt hd))
    · simp only [Bind.bind, EStateM.bind, enterLevel_of_not_lt hd]
    · simp only [Bind.bind, EStateM.bind, enterLevel_of_not_lt hd]

/-- What is done with the handle of a value open, which is refused where that is open already. -/
theorem withHandle {d : Moment} {i j : Nat}
    (h : d.isOpen = false → Logs C (d.within d.inside i) (d.within d.inside j) m k)
    (hc : d.isOpen = true → ∀ {n h}, C n h [] n h (some (.refused .circularReference))) :
    Logs C (d.within d.guards i) (d.within d.guards j) (Encoder.withHandle d.value m)
      (Encoder.withHandle d.value k) := by
  rw [Moment.isOpen] at h hc
  rw [Moment.inside, Path.into] at h
  rw [Encoder.withHandle, Encoder.withHandle]
  cases hv : d.value.handle? with
  | none =>
    simp only [hv] at h
    exact h rfl
  | some b =>
    simp only [hv, Option.any_some, decide_eq_false_iff_not, decide_eq_true_eq] at h hc
    by_cases hb : b ∈ d.guards.opened
    · refine refused (fun _ _ => ?_) (fun _ _ => ?_) (hc hb)
      · simp only [Bind.bind, EStateM.bind, openHandle_of_mem hb]
      · simp only [Bind.bind, EStateM.bind, openHandle_of_mem hb]
    · refine step_bind (fun _ _ => openHandle_of_not_mem hb) (fun _ _ => openHandle_of_not_mem hb) ?_
      exact bind_step (h hb) (fun _ _ => closeHandle_of_not_mem hb)
        fun _ _ => closeHandle_of_not_mem hb

end Logs

/-! ## Parts in order -/

namespace Encoder

open Logs WriteM

variable {e : Encoder σ} {m : Moment} {p : Path} {around : List Value} {next : List Nat} {i : Nat}
  {recur : Value → WriteM (σ × Log) Unit} {recur' : Value → WriteM σ Unit}

@[simp] theorem options_logged (e : Encoder σ) : e.logged.options = e.options := rfl

@[simp] theorem graph_logged (e : Encoder σ) : e.logged.graph = e.graph := rfl

theorem logs_lineBreak :
    Logs Silent ⟨p, around, next⟩ ⟨p, around, next⟩ e.logged.lineBreak e.lineBreak := by
  rw [lineBreak, lineBreak, options_logged]
  split
  · refine write (f := fun out => out.push lineFeed ++ List.replicate (2 * p.depth) space)
      (fun _ _ => rfl) (fun _ _ => rfl) fun out => ?_
    simp [← Array.length_toList]
  · exact nothing

theorem logs_beginElement (first : Bool) : Logs Silent ⟨p, around, next⟩ ⟨p, around, next⟩
    (e.logged.beginElement first) (e.beginElement first) := by
  have hseparator : Logs Silent ⟨p, around, next⟩ ⟨p, around, next⟩
      (separator first) (separator first : WriteM σ Unit) := by
    rw [separator, separator]
    split
    · exact nothing
    · exact Logs.push comma
  exact hseparator.silent_silent logs_lineBreak

theorem logs_close (right : UInt8) : Logs Silent ⟨p.deeper, around, next⟩ ⟨p, around, next⟩
    (e.logged.close right) (e.close right) :=
  exitLevel.silent_silent (logs_lineBreak.silent_silent (Logs.push right))

/-- Writing a value logs its course. -/
def LogsValues (e : Encoder σ) (recur : Value → WriteM (σ × Log) Unit)
    (recur' : Value → WriteM σ Unit) : Prop :=
  ∀ m : Moment, Logs (e.Course (.value m)) m.spot m.spot.past (recur m.value) (recur' m.value)

theorem LogsValues.part (h : e.LogsValues recur recur') (m : Moment) (i : Nat) (w : Value) :
    Logs (e.Course (.value (m.part i w))) (m.within m.inside.deeper i)
      (m.within m.inside.deeper (i + 1)) (recur w) (recur' w) := by
  have hpart := h (m.part i w)
  rw [Moment.spot_part] at hpart
  exact hpart

/-- The parts of a value from the `i`-th on are logged, on the way to the path `q`. -/
def LogsParts (e : Encoder σ) (m : Moment) (i : Nat) (ps : Parts) (q : Path)
    (x : WriteM (σ × Log) Unit) (y : WriteM σ Unit) : Prop :=
  ∃ j, Logs (e.Course (.parts m i ps)) (m.within m.inside.deeper i) (m.within q j) x y

theorem logs_items (h : e.LogsValues recur recur') (first : Bool) (i : Nat) (vs : List Value) :
    e.LogsParts m i { values := vs } m.inside.deeper (e.logged.items recur first vs)
      (e.items recur' first vs) := by
  induction vs generalizing first i with
  | nil => exact ⟨i, no_parts nothing⟩
  | cons v vs ih =>
    obtain ⟨j, hrest⟩ := ih false (i + 1)
    exact ⟨j, (logs_beginElement first).silent_parts ((h.part m i v).value_parts hrest)⟩

/-- A key and its value, in front of what is behind them. -/
theorem logs_member (h : e.LogsValues recur recur') (first : Bool) (key : KeyText) {v : Value}
    {rest : Parts} {x : WriteM (σ × Log) Unit} {y : WriteM σ Unit}
    (hrest : e.LogsParts m (i + 1) rest m.inside.deeper x y) :
    e.LogsParts m i { values := v :: rest.values, error := rest.error } m.inside.deeper
      (e.logged.member recur first key v >>= fun _ => x)
      (e.member recur' first key v >>= fun _ => y) := by
  have hkey : Logs Silent (m.within m.inside.deeper i) (m.within m.inside.deeper i)
      (modify fun s => { s with out := key.append s.out e.options })
      (modify fun s => { s with out := key.append s.out e.options } : WriteM σ Unit) := by
    refine write (f := fun out => key.append out e.options) (fun _ _ => rfl) (fun _ _ => rfl)
      fun out => ?_
    rw [toList_append_key]
    simp [← Array.length_toList]
  obtain ⟨j, hrest⟩ := hrest
  simp only [member, bind_assoc]
  exact ⟨j, (logs_beginElement first).silent_parts <| hkey.silent_parts <|
    (Logs.append _).silent_parts <| (h.part m i v).value_parts hrest⟩

theorem logs_members (h : e.LogsValues recur recur') (first : Bool) (i : Nat) (ms : Members) :
    e.LogsParts m i (.ofTurns (ms.map fun m => (KeyText.ofValue e.graph e.options m.1, m.2)))
      m.inside.deeper (e.logged.members recur first ms) (e.members recur' first ms) := by
  induction ms generalizing first i with
  | nil => exact ⟨i, no_parts nothing⟩
  | cons member ms ih =>
    obtain ⟨key, v⟩ := member
    rw [List.map_cons, Parts.ofTurns, members, members, options_logged, graph_logged]
    cases KeyText.ofValue e.graph e.options key with
    | ok k => exact logs_member h first k (ih false (i + 1))
    | error x =>
      exact ⟨i, Logs.refused (fun _ _ => rfl) (fun _ _ => rfl) (.refused (Nat.le_refl _))⟩

theorem logs_renderedMembers (h : e.LogsValues recur recur') (first : Bool) (i : Nat)
    (ms : List (KeyText × Value)) :
    e.LogsParts m i (.ofTurns (ms.map fun m => (.ok m.1, m.2))) m.inside.deeper
      (e.logged.renderedMembers recur first ms) (e.renderedMembers recur' first ms) := by
  induction ms generalizing first i with
  | nil => exact ⟨i, no_parts nothing⟩
  | cons member ms ih => exact logs_member h first member.1 (ih false (i + 1))

theorem logs_contents (h : e.LogsValues recur recur') (ms : Members) :
    e.LogsParts m 0 (.ofExcept ((e.turns ms).map .ofTurns)) m.inside.deeper
      (e.logged.contents recur ms) (e.contents recur' ms) := by
  rw [contents, contents, turns, options_logged, graph_logged]
  split
  · cases KeyText.sorted e.graph e.options ms with
    | ok ks => exact logs_renderedMembers h true 0 ks
    | error x =>
      exact ⟨0, Logs.refused (fun _ _ => rfl) (fun _ _ => rfl) (.refused (Nat.le_refl _))⟩
  · exact logs_members h true 0 ms

/-- A container, given what its inside is. -/
theorem logs_container {x : WriteM (σ × Log) Unit} {y : WriteM σ Unit} {ps : Parts}
    (left right : UInt8) {isEmpty : Bool} (hempty : isEmpty = true → ps = { values := [] })
    (h : e.LogsParts m 0 ps m.inside.deeper x y) :
    e.LogsParts m 0 ps m.inside
      (if isEmpty then do
        WriteM.append [left, right]
        WriteM.exitLevel
      else do
        WriteM.push left
        x
        e.logged.close right)
      (if isEmpty then do
        WriteM.append [left, right]
        WriteM.exitLevel
      else do
        WriteM.push left
        y
        e.close right) := by
  cases isEmpty with
  | true =>
    rw [hempty rfl]
    exact ⟨0, no_parts ((Logs.append [left, right]).silent_silent exitLevel)⟩
  | false =>
    obtain ⟨j, hinside⟩ := h
    exact ⟨j, (Logs.push left).silent_parts (hinside.parts_silent (logs_close right))⟩

/-! ## Values -/

/-- What a course is behind the value that it begins with. -/
def Behind (e : Encoder σ) (m : Moment) : CoursePart σ :=
  fun n h events n' h' r => e.Course (.value m) n h (.reached ⟨m, n⟩ :: events) n' h' r

/-- What is done a level deeper. -/
theorem logs_enterLevel {x : WriteM (σ × Log) Unit} {y : WriteM σ Unit} (ho : m.isOpen = false)
    (hf : (e.form m.value).takesLevel = true)
    (h : e.LogsParts m 0 (e.parts m.value) m.inside x y) :
    ∃ j, Logs (e.Behind m) (m.within m.inside 0) (m.within m.inside j)
      (enterLevel >>= fun _ => x) (enterLevel >>= fun _ => y) := by
  obtain ⟨j, hinside⟩ := h
  refine ⟨j, enterLevel_bind (fun hd => hinside.mono fun hs => ?_) fun hd _ _ => ?_⟩
  · rw [Moment.inside, Path.depth_into] at hd
    exact .native ho (needsHook_of_takesLevel hf) (fun _ => hd) hs
  · rw [Moment.inside, Path.depth_into] at hd
    exact .barred (.tooDeep ho hf hd)

/-- A value that the hook is asked about. -/
theorem logs_replaced (h : e.LogsValues recur recur') (ho : m.isOpen = false)
    (hv : e.needsHook m.value = true) :
    ∃ j, Logs (e.Behind m) (m.within m.inside 0) (m.within m.inside j)
      (e.logged.replaced recur m.value) (e.replaced recur' m.value) := by
  have hdepth : m.inside.hookDepth = m.guards.hookDepth := m.guards.hookDepth_into m.value
  cases hh : e.hook with
  | none =>
    have hl : e.logged.hook = none := by rw [logged, hh]; rfl
    exact ⟨0, refused (fun _ _ => replaced_of_none hl) (fun _ _ => replaced_of_none hh)
      (.barred (.hookless ho hv hh))⟩
  | some hook =>
    have hl : e.logged.hook = some hook.logged := by rw [logged, hh]; rfl
    by_cases hd : m.inside.hookDepth < Limits.maxHookDepth
    · refine ⟨1, fun out h₀ before => ?_⟩
      obtain ⟨⟨answer, h₁⟩, ha⟩ : ∃ a, (hook m.value).run h₀ = a := ⟨_, rfl⟩
      have ha' := Hook.run_logged ha ⟨m.value :: m.around, 0 :: m.position.reverse, before⟩
      change Logged (e.Behind m) before (m.within m.inside 1) out.size h₀
        (e.logged.replaced recur m.value (m.inside.session out
          (h₀, ⟨m.value :: m.around, 0 :: m.position.reverse, before⟩)))
        (e.replaced recur' m.value (m.inside.session out h₀))
      cases answer with
      | none =>
        rw [replaced_of_declined hh hd ha, replaced_of_declined hl hd ha']
        exact .error rfl (.declined ho hv hh (hdepth ▸ hd) ha)
      | some w =>
        rw [replaced_of_answered hh hd ha, replaced_of_answered hl hd ha']
        have hw := h (m.answer w)
        rw [Moment.spot_answer] at hw
        have hhooked : Logs (e.Course (.value (m.answer w))) (m.within m.inside 0)
            (m.within m.inside 1) (do enterHook; recur w; exitHook)
            (do enterHook; recur' w; exitHook) :=
          step_bind (fun _ _ => rfl) (fun _ _ => rfl) (bind_step hw (fun _ _ => rfl) fun _ _ => rfl)
        refine (hhooked out h₁ (before ++ [.asked m.value (some w)])).behind fun hs => ?_
        exact .answered ho hv hh (hdepth ▸ hd) ha hs
    · have hle := Nat.le_of_not_lt hd
      refine ⟨0, refused (fun _ _ => replaced_of_le hl hle) (fun _ _ => replaced_of_le hh hle) ?_⟩
      exact .barred (.tooManyAnswers ho hv hh (hdepth ▸ hle))

/-- A value in its form, where its handle is open. -/
theorem logs_formWrite (h : e.LogsValues recur recur') (ho : m.isOpen = false) :
    ∃ j, Logs (e.Behind m) (m.within m.inside 0) (m.within m.inside j)
      (e.logged.formWrite recur m.value) (e.formWrite recur' m.value) := by
  have hform : e.logged.form m.value = e.form m.value := rfl
  rw [formWrite, formWrite, hform, options_logged]
  cases hf : e.form m.value with
  | leaf =>
    have hv : e.needsHook m.value = false := by
      rw [← Bool.not_eq_true, ← form_eq_asked_iff, hf]
      exact Form.noConfusion
    have hnative {n n' : Nat} {h h' : σ} {events : List Event} {r : Option Stop}
        (hs : e.Course (.parts m 0 (e.parts m.value)) n h events n' h' r) :
        e.Behind m n h events n' h' r := .native ho hv (by simp [hf, Form.takesLevel]) hs
    rw [parts_of_leaf hf] at hnative
    refine ⟨0, lift_bind (fun b hb => ?_) fun x hx _ _ => ?_⟩
    · rw [hb] at hnative
      exact (Logs.append b).no_parts.mono hnative
    · rw [hx] at hnative
      exact hnative (.refused (Nat.le_refl _))
  | items vs =>
    refine logs_enterLevel ho (by rw [hf]; rfl) ?_
    rw [parts_of_items hf]
    refine logs_container bracketOpen bracketClose (fun hempty => ?_) (logs_items h true 0 vs)
    rw [List.isEmpty_iff.1 hempty]
  | members ms =>
    refine logs_enterLevel ho (by rw [hf]; rfl) ?_
    rw [parts_of_members hf]
    refine logs_container braceOpen braceClose (fun hempty => ?_) (logs_contents h ms)
    rw [turns_eq_ok_nil_iff.2 (List.isEmpty_iff.1 hempty)]
    rfl
  | level w =>
    refine logs_enterLevel ho (by rw [hf]; rfl) ?_
    rw [parts_of_level hf]
    exact ⟨1, (h.part m 0 w).value_parts exitLevel.no_parts⟩
  | asked => exact logs_replaced h ho ((e.form_eq_asked_iff _).1 hf)

/-- **A value that is reached is followed by what its course says**, if the values in it are. -/
theorem logs_dispatch (h : e.LogsValues recur recur') (m : Moment) :
    ∃ j, Logs (e.Behind m) (m.within m.guards 0) (m.within m.guards j)
      (e.logged.dispatch recur m.value) (e.dispatch recur' m.value) := by
  rw [dispatch_eq_form, dispatch_eq_form]
  cases ho : m.isOpen with
  | false =>
    obtain ⟨j, hform⟩ := logs_formWrite h ho
    refine ⟨j, Logs.withHandle (fun _ => hform) fun hopen => ?_⟩
    rw [ho] at hopen
    cases hopen
  | true =>
    refine ⟨0, Logs.withHandle (fun hclosed => ?_) fun _ _ _ => .barred (.circular ho)⟩
    rw [ho] at hclosed
    cases hclosed

theorem reach_session (m : Moment) (out : Array UInt8) (h : σ) (before : List Event) :
    WriteM.reach m.value (m.spot.session out h before) =
      .ok () ((m.within m.guards 0).session out h (before ++ [.reached ⟨m, out.size⟩])) := by
  have hposition : m.spot.next.reverse = m.position := List.reverse_reverse _
  have hreach : WriteM.reach m.value (m.spot.session out h before) =
      .ok () ((m.within m.guards 0).session out h
        (before ++ [.reached ⟨⟨m.value, m.around, m.guards, m.spot.next.reverse⟩, out.size⟩])) := rfl
  rw [hreach, hposition]

/-- **Writing a value with a log writes it, and logs its course.** -/
theorem logs_value (e : Encoder σ) (budget : Nat) :
    e.LogsValues (e.loggedValue budget) (e.value budget) := by
  induction budget with
  | zero => exact fun m out h before => .error (List.append_nil _).symm .outOfBudget
  | succ budget ih =>
    intro m out h before
    obtain ⟨j, hdispatch⟩ := logs_dispatch ih m
    have hl : Logged (e.Behind m) (before ++ [.reached ⟨m, out.size⟩]) (m.within m.guards j)
        out.size h (e.logged.dispatch (e.loggedValue budget) m.value
          ((m.within m.guards 0).session out h (before ++ [.reached ⟨m, out.size⟩])))
        (e.dispatch (e.value budget) m.value (m.spot.guards.session out h)) := hdispatch out h _
    rw [loggedValue, value]
    simp only [Bind.bind, EStateM.bind, reach_session]
    generalize e.logged.dispatch (e.loggedValue budget) m.value _ = x at hl ⊢
    generalize e.dispatch (e.value budget) m.value _ = y at hl ⊢
    have hcourse : Logged (e.Course (.value m)) before (m.within m.guards j) out.size h x y :=
      hl.behind fun hs => hs
    cases hcourse with
    | ok hs => exact .ok hs
    | error he hs => exact .error he hs

/-- A run from the top. -/
theorem logged_run (e : Encoder σ) (budget : Nat) (v : Value) (out : Array UInt8) (h : σ) :
    Logged (e.Course (.value (.top v))) [] (Moment.top v).spot.past out.size h
      ((e.loggedValue budget v).run { out := out, hookState := (h, {}) })
      ((e.value budget v).run { out := out, hookState := h }) :=
  e.logs_value budget (.top v) out h []

/-! ## The course of an encoding -/

/-- What is told of how an encoding of `v` ended, and of what happened before. -/
structure IsTold (e : Encoder σ) (v : Value) (out : Array UInt8) (h : σ) (ended : Outcome σ)
    (events : List Event) : Prop where
  /-- The log changes nothing. -/
  ended_eq : ended = e.encodeInto v out h
  course : ∃ n, e.Course (.value (.top v)) out.size h events n ended.hookState
    (ended.error.map .refused)
  head_eq : events.head? = some (.reached ⟨.top v, out.size⟩)
  /-- The hook is called once for each value that is reached, has no native encoding and may be asked
  about, and for no other. -/
  calls_eq : Event.calls events = ((Event.visits events).filter e.asks).map fun m => m.value
  pairwise : (Event.visits events).Pairwise fun a b =>
    a.IsBefore b.toMoment ∧ a.written ≤ b.written
  /-- No two values are reached at one position. -/
  nodup : ((Event.visits events).map fun m => m.position).Nodup
  /-- What is reached is come to by steps down, each to the part of its number or to an answer. -/
  placed : ∀ m ∈ Event.visits events,
    m.IsPlaced e v ∧ Relation.ReflTransGen e.Steps (.top v) m.toMoment
  /-- Without an error all parts are reached of what is reached. -/
  complete : ended.error = none → ∀ m ∈ Event.visits events, ∀ i w,
    (e.parts m.value).values[i]? = some w → ∃ m' ∈ Event.visits events, m'.toMoment = m.part i w
  /-- A value that is barred fails the encoding, and one that the hook declines. -/
  refused : ∀ m ∈ Event.visits events, ∀ x, e.Bars m.toMoment x → ended.error = some x
  declined : ∀ w, .asked w none ∈ events → ended.error = some (.unsupported w.typeName)
  /-- Any error is that of a leaf or a key, or of such a value, which is the last. -/
  endsWith : ∀ x, ended.error = some x → x.isOwn = false → e.EndsWith x events

theorem isTold_of_course {e : Encoder σ} {v : Value} {out : Array UInt8} {h : σ} {ended : Outcome σ}
    {events : List Event} {n : Nat} (hended : ended = e.encodeInto v out h)
    (hs : e.Course (.value (.top v)) out.size h events n ended.hookState
      (ended.error.map .refused)) : e.IsTold v out h ended events where
  ended_eq := hended
  course := ⟨n, hs⟩
  head_eq := by
    obtain ⟨rest, rfl⟩ := hs.exists_cons_reached (by cases ended.error <;> nofun)
    rfl
  calls_eq := hs.calls_eq
  pairwise := hs.pairwise_isBefore
  nodup := hs.nodup_position
  placed := by
    have htop : Moment.IsPlaced e v (.top v) := ⟨.singleton _, rfl, rfl, rfl⟩
    exact hs.forall_visits
      (P := fun m => m.IsPlaced e v ∧ Relation.ReflTransGen e.Steps (.top v) m)
      (fun hm hstep => ⟨hm.1.step hstep, hm.2.tail hstep⟩) ⟨htop, .refl⟩
  complete := by
    intro hnone
    rw [hnone] at hs
    exact hs.exists_visit_of_part
  refused := fun m hm x hx => Option.map_injective Stop.refused_injective (hs.eq_refused_of_bars m hm x hx)
  declined := fun w hw => Option.map_injective Stop.refused_injective (hs.eq_refused_of_declined w hw)
  endsWith := by
    intro x hx hown
    rw [hx] at hs
    exact hs.endsWith trivial hown

/-- **Whatever the options, the graph and the hook, and whatever state that keeps, an encoding goes on
in the same way with a log, and what is logged is the course of the encoding.** -/
theorem encodeInto_course (e : Encoder σ) (v : Value) (out : Array UInt8) (h : σ) :
    e.IsTold v out h (e.loggedEncode v out h).1 (e.loggedEncode v out h).2 := by
  have hrun := e.logged_run budget v out h
  have hbudget := e.value_ne_outOfBudget v out h
  rw [loggedEncode]
  have hended : e.encodeInto v out h =
      match (e.value budget v).run { out := out, hookState := h } with
      | .ok _ s => ⟨none, if e.options.appendNewline then s.out.push lineFeed else s.out, s.hookState⟩
      | .error stop s => ⟨some stop.error, s.out.take out.size, s.hookState⟩ := rfl
  generalize (e.loggedValue budget v).run _ = x at hrun ⊢
  generalize (e.value budget v).run _ = y at hrun hbudget hended
  cases hrun with
  | ok hs => exact isTold_of_course hended.symm hs
  | @error stop s events he hs =>
    cases stop with
    | outOfBudget => exact absurd rfl (hbudget _)
    | refused x =>
      rw [List.nil_append] at he
      subst he
      exact isTold_of_course hended.symm hs

/-- A hook that counts its calls, and answers each with null. -/
def counting : Hook Nat := fun _ n => (some .null, n + 1)

/-- One application value in two items is reached twice, and asked about twice. -/
theorem encodeInto_course_siblings :
    let e : Encoder Nat := { hook := some counting }
    let point : Value := .foreign ⟨7⟩ "Point"
    let told := e.loggedEncode (.array [point, point]) #[] 0
    e.IsTold (.array [point, point]) #[] 0 told.1 told.2 ∧
      told.1.hookState = 2 ∧ Event.calls told.2 = [point, point] ∧
      (Event.visits told.2).map (fun m => m.position) = [[], [0], [0, 0], [1], [1, 0]] :=
  ⟨encodeInto_course _ _ _ _, rfl, rfl, rfl⟩

end Encoder

end JsonCodec
