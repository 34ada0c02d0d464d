/-
Moving a cursor over bytes, as a relation: `c.Passes b c'` says that `b` comes next at `c` and that
`c'` stands behind it. What a reader takes is stated with it in both directions, so that what it
accepts and what it must accept are one statement.
-/
import Mathlib.Data.List.TakeWhile
import JsonCodec.Document.Cursor

namespace JsonCodec

namespace Cursor

/-- `c'` is `c` moved over `b`, which comes next. -/
def Passes (c : Cursor) (b : Bytes) (c' : Cursor) : Prop :=
  c.rest = b ++ c'.rest ∧ c'.pos = c.pos + b.length

theorem passes_nil {c c' : Cursor} : c.Passes [] c' ↔ c' = c := by
  obtain ⟨pos, rest⟩ := c
  obtain ⟨pos', rest'⟩ := c'
  simp [Passes, and_comm, eq_comm]

theorem passes_append {c c' : Cursor} {a b : Bytes} :
    c.Passes (a ++ b) c' ↔ ∃ m, c.Passes a m ∧ m.Passes b c' := by
  constructor
  · intro ⟨hr, hp⟩
    refine ⟨⟨c.pos + a.length, b ++ c'.rest⟩, ⟨by rw [hr, List.append_assoc], rfl⟩, rfl, ?_⟩
    rw [hp, List.length_append, Nat.add_assoc]
  · intro ⟨m, ⟨hr, hp⟩, hr', hp'⟩
    exact ⟨by rw [hr, hr', List.append_assoc], by rw [hp', hp, List.length_append, Nat.add_assoc]⟩

theorem Passes.trans {c m c' : Cursor} {a b : Bytes} (h : c.Passes a m) (h' : m.Passes b c') :
    c.Passes (a ++ b) c' := passes_append.2 ⟨m, h, h'⟩

theorem Passes.length {c c' : Cursor} {b : Bytes} (h : c.Passes b c') :
    c.rest.length = b.length + c'.rest.length := by rw [h.1, List.length_append]

theorem passes_singleton {c c' : Cursor} {b : UInt8} :
    c.Passes [b] c' ↔ c.peek = some b ∧ c' = c.advance 1 := by
  obtain ⟨pos, rest⟩ := c
  obtain ⟨pos', rest'⟩ := c'
  cases rest with
  | nil => simp [Passes, peek]
  | cons a rest =>
    simp only [Passes, peek, advance, List.head?_cons, Option.some.injEq, mk.injEq,
      List.singleton_append, List.cons.injEq, List.length_singleton, List.take_succ_cons,
      List.take_zero, List.drop_succ_cons, List.drop_zero]
    constructor
    · rintro ⟨⟨rfl, rfl⟩, rfl⟩
      exact ⟨rfl, rfl, rfl⟩
    · rintro ⟨rfl, rfl, rfl⟩
      exact ⟨⟨rfl, rfl⟩, rfl⟩

theorem passes_cons {c c' : Cursor} {a : UInt8} {b : Bytes} :
    c.Passes (a :: b) c' ↔ c.peek = some a ∧ (c.advance 1).Passes b c' := by
  rw [← List.singleton_append, passes_append]
  constructor
  · rintro ⟨m, ha, hb⟩
    obtain ⟨hpeek, rfl⟩ := passes_singleton.1 ha
    exact ⟨hpeek, hb⟩
  · rintro ⟨hpeek, hb⟩
    exact ⟨_, passes_singleton.2 ⟨hpeek, rfl⟩, hb⟩

theorem passes_append_cons {c c' : Cursor} {a b : Bytes} {x : UInt8} :
    c.Passes (a ++ x :: b) c' ↔ ∃ m, c.Passes (a ++ [x]) m ∧ m.Passes b c' := by
  rw [← List.singleton_append, ← List.append_assoc, passes_append]

theorem Passes.pos_eq {document b : Bytes} {c : Cursor} (h : (ofBytes document).Passes b c) :
    c.pos = b.length := h.2.trans (Nat.zero_add _)

/-- No byte of a class comes next. -/
def Stops (p : UInt8 → Bool) (c : Cursor) : Prop := ∀ b ∈ c.peek, p b = false

theorem Stops.mono {p q : UInt8 → Bool} {c : Cursor} (h : c.Stops p)
    (hpq : ∀ b, q b = true → p b = true) : c.Stops q := by
  intro b hb
  have hp := h b hb
  cases hq : q b with
  | true => rw [hpq b hq] at hp; cases hp
  | false => rfl

theorem Passes.peek {c c' : Cursor} {b : Bytes} (h : c.Passes b c') (hb : b ≠ []) :
    c.peek = b.head? := by
  obtain ⟨a, b, rfl⟩ := List.exists_cons_of_ne_nil hb
  rw [Cursor.peek, h.1]
  rfl

theorem Passes.peek_eq {c c' : Cursor} {b : Bytes} (h : c.Passes b c') :
    c.peek = b.head?.or c'.peek := by
  rw [Cursor.peek, h.1, List.head?_append]
  rfl

/-- What comes next is the front of what is passed, or else what stands behind that. -/
theorem Passes.stops {c c' : Cursor} {b : Bytes} {p : UInt8 → Bool} (h : c.Passes b c')
    (hb : ∀ x ∈ b.head?, p x = false) (hs : c'.Stops p) : c.Stops p := by
  intro x hx
  cases b with
  | nil => exact hs x (passes_nil.1 h ▸ hx)
  | cons a b => exact hb x (h.peek (List.cons_ne_nil a b) ▸ hx)

/-- A span is the longest run of its class. -/
theorem span_eq_iff {c c' : Cursor} {b : Bytes} {p : UInt8 → Bool} :
    c.span p = (b, c') ↔ c.Passes b c' ∧ (∀ x ∈ b, p x = true) ∧ c'.Stops p := by
  simp only [span, Prod.mk.injEq]
  constructor
  · rintro ⟨rfl, rfl⟩
    refine ⟨⟨List.takeWhile_append_dropWhile.symm, rfl⟩, fun x hx => ?_, fun x hx => ?_⟩
    · exact List.mem_takeWhile_imp hx
    · have hn := List.head?_dropWhile_not p c.rest
      simp only [peek, Option.mem_def] at hx
      rw [hx] at hn
      simpa using hn
  · rintro ⟨⟨hr, hp⟩, hall, hstop⟩
    have hd : c'.rest.dropWhile p = c'.rest ∧ c'.rest.takeWhile p = [] := by
      cases h : c'.rest with
      | nil => simp
      | cons x rest => simp [hstop x (by simp [peek, h])]
    have ht : c.rest.takeWhile p = b := by
      rw [hr, List.takeWhile_append_of_pos hall, hd.2, List.append_nil]
    refine ⟨ht, ?_⟩
    rw [ht, ← hp, hr, List.dropWhile_append_of_pos hall, hd.1]

theorem stops_of_peek {c : Cursor} {b : UInt8} {p : UInt8 → Bool} (h : c.peek = some b)
    (hp : p b = false) : c.Stops p := by
  intro x hx
  rw [Option.mem_def, h] at hx
  cases hx
  exact hp

end Cursor

namespace ReadM

variable {α β : Type} {c c' : Cursor}

theorem bind_eq_ok {m : ReadM α} {f : α → ReadM β} {b : β} :
    (m >>= f) c = .ok b c' ↔ ∃ a c₁, m c = .ok a c₁ ∧ f a c₁ = .ok b c' := by
  simp only [bind, EStateM.bind]
  cases h : m c with
  | ok a c₁ =>
    constructor
    · exact fun hf => ⟨a, c₁, rfl, hf⟩
    · rintro ⟨_, _, ⟨⟩, hf⟩
      exact hf
  | error fault c₁ =>
    constructor
    · exact fun hf => nomatch hf
    · rintro ⟨_, _, ⟨⟩, _⟩

theorem bind_of_ok {m : ReadM α} {f : α → ReadM β} {a : α} (h : m c = .ok a c') :
    (m >>= f) c = f a c' := by simp only [bind, EStateM.bind, h]

/-! The steps that cannot fail. -/

@[simp] theorem pure_apply (a : α) : (pure a : ReadM α) c = .ok a c := rfl

@[simp] theorem skipBlanks_bind (f : Unit → ReadM β) : (skipBlanks >>= f) c = f () c.skipBlanks := rfl

@[simp] theorem peek_bind (f : Option UInt8 → ReadM β) : (peek >>= f) c = f c.peek c := rfl

@[simp] theorem advance_bind (n : Nat) (f : Unit → ReadM β) :
    (advance n >>= f) c = f () (c.advance n) := rfl

@[simp] theorem unexpected_apply (reason : Reason) :
    (unexpected reason : ReadM α) c = .error (c.unexpected reason) c := rfl

end ReadM

end JsonCodec
