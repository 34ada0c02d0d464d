/-
Guards against endless descent: a bounded depth, and the set of identities on the current path.
-/
import JsonCodec.Limits

namespace JsonCodec

/-- How many levels are open, and how many may be. -/
structure DepthTracker where
  current : Nat := 0
  max : Nat := Limits.maxDepth
deriving DecidableEq, Inhabited

namespace DepthTracker

/-- One level more, unless all are open. -/
def enter? (d : DepthTracker) : Option DepthTracker :=
  if d.current < d.max then some { d with current := d.current + 1 } else none

/-- One level less; outside of every level nothing changes. -/
def exit (d : DepthTracker) : DepthTracker := { d with current := d.current - 1 }

theorem enter?_eq_some_iff {d e : DepthTracker} :
    d.enter? = some e ↔ d.current < d.max ∧ e = { d with current := d.current + 1 } := by
  unfold enter?
  split
  · simp_all [eq_comm]
  · simp_all only [Nat.not_lt, reduceCtorEq, false_iff, not_and]
    omega

/-- Leaving a level leads back to where it was entered. -/
theorem exit_of_enter? {d e : DepthTracker} (h : d.enter? = some e) : e.exit = d := by
  obtain ⟨_, rfl⟩ := enter?_eq_some_iff.1 h
  rfl

end DepthTracker

/-- The identities that are open: those on the path to the place that is being written. One that
is met twice off its own path is no cycle. -/
structure CycleGuard (ι : Type) where
  active : List ι := []
deriving Inhabited

namespace CycleGuard

variable {ι : Type} [DecidableEq ι]

/-- Opens `i`, unless it is open: then it contains itself. -/
def enter? (g : CycleGuard ι) (i : ι) : Option (CycleGuard ι) :=
  if i ∈ g.active then none else some ⟨i :: g.active⟩

/-- Closes `i`. -/
def exit (g : CycleGuard ι) (i : ι) : CycleGuard ι := ⟨g.active.filter (· ≠ i)⟩

theorem enter?_eq_some_iff {g h : CycleGuard ι} {i : ι} :
    g.enter? i = some h ↔ i ∉ g.active ∧ h = ⟨i :: g.active⟩ := by
  unfold enter?
  split <;> simp_all [eq_comm]

/-- Closing what was opened leads back to where it was opened. -/
theorem exit_of_enter? {g h : CycleGuard ι} {i : ι} (he : g.enter? i = some h) : h.exit i = g := by
  obtain ⟨hi, rfl⟩ := enter?_eq_some_iff.1 he
  have : g.active.filter (· ≠ i) = g.active := by
    rw [List.filter_eq_self]
    intro a ha
    simp only [ne_eq, decide_not, Bool.not_eq_true', decide_eq_false_iff_not]
    rintro rfl
    exact hi ha
  simp only [exit, List.filter_cons, ne_eq, not_true_eq_false, decide_false, Bool.false_eq_true,
    ite_false]
  exact congrArg CycleGuard.mk this

end CycleGuard

end JsonCodec
