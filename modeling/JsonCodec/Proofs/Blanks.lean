/-
A document without the blanks between its tokens. Spaces and line feeds are taken out wherever the
reader is not within a text (`Place.stripped`); of a token nothing is taken out, since where it has
blanks it is a text (`stripped_text`).
-/
import JsonCodec.Proofs.Lines

namespace JsonCodec.Place

open Ascii Grammar

/-- The bytes without the spaces and line feeds outside texts. -/
def stripped (s : Place) : Bytes → Bytes
  | [] => []
  | x :: bytes =>
    if s.inText = false ∧ (x = space ∨ x = lineFeed) then (s.step x).stripped bytes
    else x :: (s.step x).stripped bytes

variable {s : Place} {k : Nat} {x : UInt8} {bytes : Bytes}

@[simp] theorem stripped_nil (s : Place) : s.stripped [] = [] := rfl

@[simp] theorem stripped_append (s : Place) (a b : Bytes) :
    s.stripped (a ++ b) = s.stripped a ++ (s.run a).stripped b := by
  induction a generalizing s with
  | nil => rfl
  | cons x a ih =>
    rw [List.cons_append, stripped, stripped, ih, run_cons]
    split <;> rfl

/-- Within a text nothing is taken out. -/
theorem stripped_cons_of_inText (h : s.inText = true) :
    s.stripped (x :: bytes) = x :: (s.step x).stripped bytes := by
  rw [stripped, if_neg fun hs => Bool.noConfusion (h.symm.trans hs.1)]

theorem stripped_cons_of_ne (h : x ≠ space) (hl : x ≠ lineFeed) :
    s.stripped (x :: bytes) = x :: (s.step x).stripped bytes := by
  rw [stripped, if_neg fun hs => hs.2.elim h hl]

theorem stripped_blank (h : x = space ∨ x = lineFeed) :
    (outside k).stripped (x :: bytes) = (outside k).stripped bytes := by
  have hstep : (outside k).step x = outside k := by rcases h with rfl | rfl <;> rfl
  rw [stripped, if_pos ⟨rfl, h⟩, hstep]

/-! ## Texts -/

theorem stripped_inside (h : ∀ x ∈ bytes, x ≠ quote ∧ x ≠ backslash) :
    (inside k).stripped bytes = bytes := by
  induction bytes with
  | nil => rfl
  | cons x bytes ih =>
    obtain ⟨⟨hq, hb⟩, hbytes⟩ := List.forall_mem_cons.1 h
    have hstep : (inside k).step x = inside k := (isQuiet_inside hq hb).run_eq
    rw [stripped_cons_of_inText rfl, hstep, ih hbytes]

theorem stripped_escaped {sequence : Bytes} {c : Char} (h : Escaped sequence c) :
    (inside k).stripped (backslash :: sequence) = backslash :: sequence := by
  have front (x : UInt8) (more : Bytes) : (inside k).stripped (backslash :: x :: more) =
      backslash :: x :: (inside k).stripped more := by
    rw [stripped_cons_of_inText rfl, stripped_cons_of_inText rfl]
    rfl
  have digits {ds more : Bytes} {n : Nat} (h : CodeUnit ds n) : (inside k).stripped (ds ++ more) =
      ds ++ (inside k).stripped more := by
    rw [stripped_append, stripped_inside (ne_of_mem_codeUnit h), (isQuiet_codeUnit h).run_eq]
  cases h with
  | short h => exact front _ []
  | unit h _ => rw [front, stripped_inside (ne_of_mem_codeUnit h)]
  | pair hh _ hl _ =>
    rw [front, digits hh, front, stripped_inside (ne_of_mem_codeUnit hl)]

theorem stripped_chars {chars : List Char} (h : Chars bytes chars) :
    (inside k).stripped bytes = bytes := by
  induction h with
  | nil => rfl
  | plain hc _ ih =>
    rw [stripped_append, stripped_inside (ne_of_mem_plain hc), (isQuiet_plain hc).run_eq, ih]
  | escape hs _ ih =>
    rw [← List.cons_append, stripped_append, stripped_escaped hs, (isQuiet_escaped hs).run_eq, ih]

/-- **Nothing is taken out of a text.** -/
theorem stripped_text {literal : Bytes} {text : String} (h : Text literal text) :
    (outside k).stripped literal = literal := by
  cases h with
  | mk h =>
    have hopen : (outside k).step quote = inside k := rfl
    rw [stripped_cons_of_ne (by decide) (by decide), hopen, stripped_append, stripped_chars h,
      (isQuiet_chars h).run_eq]
    rfl

theorem stripped_word (h : ∀ x ∈ bytes, isWordByte x = true) :
    (outside k).stripped bytes = bytes := by
  induction bytes with
  | nil => rfl
  | cons x bytes ih =>
    obtain ⟨hx, hbytes⟩ := List.forall_mem_cons.1 h
    have hstep : (outside k).step x = outside k := (isQuiet_wordByte hx).run_eq
    obtain ⟨hblank, -⟩ := isWordByte_iff.1 hx
    have hne : x ≠ space ∧ x ≠ lineFeed := by
      constructor <;>
        · rintro rfl
          cases hblank
    rw [stripped_cons_of_ne hne.1 hne.2, hstep, ih hbytes]

/-! ## Pieces -/

/-- A piece that closes what it opens, and what is left of it without blanks. -/
structure Strips (bytes bare : Bytes) : Prop where
  run_eq : ∀ k, (outside k).run bytes = outside k
  stripped_eq : ∀ k, (outside k).stripped bytes = bare

namespace Strips

variable {a b bare rest : Bytes}

theorem nil : Strips [] [] := ⟨fun _ => rfl, fun _ => rfl⟩

theorem append (ha : Strips a bare) (hb : Strips b rest) : Strips (a ++ b) (bare ++ rest) where
  run_eq k := by rw [run_append, ha.run_eq, hb.run_eq]
  stripped_eq k := by rw [stripped_append, ha.run_eq, ha.stripped_eq, hb.stripped_eq]

theorem text {literal : Bytes} {text : String} (h : Text literal text) : Strips literal literal :=
  ⟨fun _ => (isQuiet_text h).run_eq, fun _ => stripped_text h⟩

theorem word (h : ∀ x ∈ bytes, isWordByte x = true) : Strips bytes bytes :=
  ⟨fun _ => (isQuiet_of_forall fun x hx => isQuiet_wordByte (h x hx)).run_eq, fun _ => stripped_word h⟩

/-- Of blanks nothing is left. -/
theorem blanks (h : ∀ x ∈ bytes, x = space ∨ x = lineFeed) : Strips bytes [] := by
  induction bytes with
  | nil => exact .nil
  | cons x bytes ih =>
    obtain ⟨hx, hbytes⟩ := List.forall_mem_cons.1 h
    have hx : Strips [x] [] := by
      refine ⟨fun k => ?_, fun k => stripped_blank hx⟩
      rcases hx with rfl | rfl <;> rfl
    exact hx.append (ih hbytes)

/-- Brackets are left. -/
theorem brackets {left right : UInt8} (hl : isOpening left = true) (hr : isClosing right = true)
    (h : Strips bytes bare) : Strips (left :: (bytes ++ [right])) (left :: (bare ++ [right])) := by
  have ne {x : UInt8} (hx : isOpening x = true ∨ isClosing x = true) : x ≠ space ∧ x ≠ lineFeed := by
    constructor <;>
      · rintro rfl
        cases hx with
        | inl hx | inr hx => cases hx
  obtain ⟨hl₁, hl₂⟩ := ne (.inl hl)
  obtain ⟨hr₁, hr₂⟩ := ne (.inr hr)
  constructor
  · intro k
    rw [run_cons, step_opening hl, run_append, h.run_eq, run_cons, step_closing hr, run_nil]
  · intro k
    rw [stripped_cons_of_ne hl₁ hl₂, step_opening hl, stripped_append, h.run_eq, h.stripped_eq,
      stripped_cons_of_ne hr₁ hr₂, stripped_nil]

end Strips

end JsonCodec.Place
