/-
The lines that the encoder writes. Each part of a container is on a line of its own, at the level
that the encoder has come to; so the lines of a container are indented if that level is the number
of brackets around it (`Options.isIndented_bracketed`). What is no container has no lines
(`isToken_leafText`).
-/
import JsonCodec.Proofs.Encoder.Lexemes
import JsonCodec.Proofs.Encoder.Success

namespace JsonCodec

open Ascii Place

variable {σ : Type}

/-! ## The lines of a container -/

namespace Place

variable {k d : Nat} {x : UInt8} {more rest : Bytes}

theorem isQuiet_spaces (n : Nat) : IsQuiet (outside k) (List.replicate n space) :=
  isQuiet_of_forall fun x hx => by
    rw [List.eq_of_mem_replicate hx]
    exact isQuiet_of_step rfl (.inr (by decide))

theorem run_break (d : Nat) :
    (outside k).run (lineFeed :: List.replicate (2 * d) space) = outside k :=
  (isQuiet_spaces _).run_eq

/-- A line is indented if its spaces are those of the brackets around what it starts with. -/
theorem isIndented_break (hx : x ≠ space) :
    (outside k).IsIndented (lineFeed :: List.replicate (2 * d) space) (x :: more) ↔
      d = k - if isClosing x then 1 else 0 := by
  have hspaces : ∀ a ∈ List.replicate (2 * d) space, (a == space) = true :=
    fun a ha => beq_iff_eq.2 (List.eq_of_mem_replicate ha)
  have hx' : (x == space) = false := beq_eq_false_iff_ne.2 hx
  have htake : (List.replicate (2 * d) space ++ x :: more).takeWhile (· == space) =
      List.replicate (2 * d) space := by
    rw [List.takeWhile_append_of_pos hspaces, List.takeWhile_cons, hx']
    exact List.append_nil _
  have hdrop : (List.replicate (2 * d) space ++ x :: more).dropWhile (· == space) = x :: more := by
    rw [List.dropWhile_append_of_pos hspaces, List.dropWhile_cons, hx']
    rfl
  have hquiet : (outside k).IsIndented (List.replicate (2 * d) space) (x :: more) :=
    (isQuiet_spaces _).isIndented _
  have hstep : (outside k).step lineFeed = outside k := rfl
  rw [isIndented_cons, hstep, Indents, indentation, startsClosing, htake, hdrop,
    List.length_replicate, List.head?_cons, Option.any_some]
  simp only [hquiet, true_implies, and_true]
  omega

end Place

namespace Options

variable {o : Options} {k d : Nat} {first : Bool} {x left right : UInt8} {b : Bytes}
  {more parts rest : Bytes} {bs : List Bytes}

theorem isQuiet_separator (first : Bool) :
    IsQuiet (outside k) (if first then [] else [comma]) := by
  cases first with
  | true => exact .nil
  | false => exact isQuiet_wordByte (by decide)

theorem run_leadAt (hi : o.indent2 = true) : (outside k).run (o.leadAt d first) = outside k := by
  rw [leadAt, run_append, (isQuiet_separator first).run_eq, breakAt, if_pos hi, run_break]

/-- A part is on a line of the level of the brackets around it. -/
theorem isIndented_leadAt (hi : o.indent2 = true) (hb : IsBegun b) :
    (outside k).IsIndented (o.leadAt d first) (b ++ rest) ↔ d = k := by
  obtain ⟨x, more, rfl, hx, hclose⟩ := hb
  have hbreak : (outside k).IsIndented (lineFeed :: List.replicate (2 * d) space)
      (x :: (more ++ rest)) ↔ d = k - if isClosing x then 1 else 0 := isIndented_break hx
  rw [hclose] at hbreak
  have hsep := isQuiet_separator (k := k) first
  rw [leadAt, isIndented_append, hsep.run_eq, breakAt, if_pos hi]
  exact (and_iff_right (hsep.isIndented _)).trans hbreak

theorem run_joined (hi : o.indent2 = true) (h : ∀ b ∈ bs, IsPart b) :
    (outside k).run (joined (o.leadAt d) first bs) = outside k := by
  induction bs generalizing first with
  | nil => rfl
  | cons b bs ih =>
    obtain ⟨hb, hbs⟩ := List.forall_mem_cons.1 h
    rw [joined, run_append, run_append, run_leadAt hi, hb.run_eq, ih hbs]

theorem isIndented_joined (hi : o.indent2 = true) (h : ∀ b ∈ bs, IsPart b) :
    (outside k).IsIndented (joined (o.leadAt d) first bs) rest ↔
      (bs ≠ [] → d = k) ∧ ∀ b ∈ bs, (outside k).IsIndented b [] := by
  induction bs generalizing first with
  | nil => simp [joined]
  | cons b bs ih =>
    obtain ⟨hb, hbs⟩ := List.forall_mem_cons.1 h
    rw [joined, isIndented_append, isIndented_append, run_append, run_leadAt hi, hb.run_eq, hb.alone,
      isIndented_leadAt hi hb.begun, ih hbs, List.forall_mem_cons]
    simp only [ne_eq, reduceCtorEq, not_false_eq_true, true_implies]
    exact ⟨fun ⟨⟨hd, hb⟩, _, hbs⟩ => ⟨hd, hb, hbs⟩, fun ⟨hd, hb, hbs⟩ => ⟨⟨hd, hb⟩, fun _ => hd, hbs⟩⟩

/-- **The lines of a container are indented if it has none or they have the level of the brackets
around it, and the lines of its parts are indented.** -/
theorem isIndented_bracketed (hi : o.indent2 = true) (hl : isOpening left = true)
    (hr : isClosing right = true) (h : ∀ b ∈ bs, IsPart b) :
    (outside k).IsIndented (o.bracketed d left right bs) rest ↔
      (bs ≠ [] → d = k) ∧ ∀ b ∈ bs, (outside (k + 1)).IsIndented b [] := by
  have hfeed {x : UInt8} (hx : isOpening x = true ∨ isClosing x = true) : x ≠ lineFeed := by
    rintro rfl
    cases hx with
    | inl hx | inr hx => cases hx
  have hright : right ≠ space := by
    rintro rfl
    cases hr
  have hclose (s : Place) : s.IsIndented [right] rest :=
    isIndented_cons.2 ⟨fun hx => absurd hx (hfeed (.inr hr)), isIndented_nil⟩
  rw [bracketed]
  split
  · next hnil =>
    obtain rfl := List.isEmpty_iff.1 hnil
    rw [isIndented_cons]
    simp [hclose, hfeed (.inl hl)]
  · next hne =>
    have hbs : bs ≠ [] := by simpa using hne
    rw [isIndented_cons, step_opening hl, isIndented_append, isIndented_append, run_append,
      run_joined hi h, isIndented_joined hi h, breakAt, if_pos hi, List.cons_append,
      List.nil_append, isIndented_break hright, run_break, hr]
    simp only [hclose, hfeed (.inl hl), false_implies, true_and, and_true, ite_true,
      Nat.add_right_cancel_iff, Nat.add_sub_cancel]
    exact ⟨fun h => h.1, fun h => ⟨h, h.1 hbs⟩⟩

theorem isPart_bracketed (hi : o.indent2 = true) (hl : isOpening left = true)
    (hr : isClosing right = true) (h : ∀ b ∈ bs, IsPart b) :
    IsPart (o.bracketed d left right bs) where
  begun := by
    refine ⟨left, (o.bracketed d left right bs).tail, ?_, ?_, ?_⟩
    · rw [bracketed]
      split <;> rfl
    · rintro rfl
      cases hl
    · rw [isOpening, Bool.or_eq_true, beq_iff_eq, beq_iff_eq] at hl
      rcases hl with rfl | rfl <;> rfl
  run_eq k := by
    rw [bracketed]
    split
    · rw [run_cons, step_opening hl, run_cons, step_closing hr, run_nil]
    · rw [run_cons, step_opening hl, run_append, run_append, run_joined hi h, breakAt, if_pos hi,
        run_break, run_cons, step_closing hr, run_nil]
  alone k rest := by rw [isIndented_bracketed hi hl hr h, isIndented_bracketed hi hl hr h]

variable {key : KeyText}

theorem isQuiet_memberFront (o : Options) (hk : key.IsSound) :
    IsQuiet (outside k) (key.quoted o ++ o.afterKey) := by
  refine ((isToken_text (key.text_quoted hk o)).quiet k).append ?_
  rw [afterKey]
  split
  · exact (isQuiet_wordByte (x := colon) (by decide)).append (isQuiet_spaces 1)
  · exact isQuiet_wordByte (by decide)

theorem isIndented_memberBytes (hk : key.IsSound) :
    (outside k).IsIndented (o.memberBytes (key, b)) rest ↔ (outside k).IsIndented b rest := by
  have hquiet := isQuiet_memberFront (k := k) o hk
  rw [memberBytes, isIndented_append, hquiet.run_eq]
  exact and_iff_right (hquiet.isIndented _)

theorem isPart_memberBytes (hk : key.IsSound) (hb : IsPart b) : IsPart (o.memberBytes (key, b)) where
  begun := by
    obtain ⟨x, more, hkey, hx⟩ := (isToken_text (key.text_quoted hk o)).begun
    exact ⟨x, more ++ o.afterKey ++ b, by simp only [memberBytes, hkey, List.cons_append], hx⟩
  run_eq k := by rw [memberBytes, run_append, (isQuiet_memberFront o hk).run_eq, hb.run_eq]
  alone k rest := by rw [isIndented_memberBytes hk, isIndented_memberBytes hk, hb.alone]

end Options

/-! ## Leaves -/

theorem IsLexeme.isToken {asciiOnly : Bool} {b : Bytes} (h : IsLexeme asciiOnly b) : IsToken b := by
  cases h with
  | word hne h =>
    refine isToken_word hne fun x hx => ?_
    exact (Bool.and_eq_true_iff.1 (List.all_eq_true.1 h x hx)).1
  | plain h => exact isToken_text (text_of_plainBytes h)
  | literal text => exact isToken_text (text_literal _ text)

/-- **A value with a text of its own is a token.** -/
theorem isToken_leafText {e : Encoder σ} {v : Value} {b : Bytes} (hf : e.form v = .leaf)
    (hfrag : v.isFragment = false) (h : v.leafText e.options = .ok b) : IsToken b :=
  (isLexeme_leafText hf hfrag h).isToken

end JsonCodec
