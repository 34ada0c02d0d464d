/-
The lines of a document, as a reader sees them who knows nothing of values: he counts the brackets
that are open and knows when he is within a text (`Place`). A document is indented if every line
that starts outside a text has two spaces for every bracket that is open there (`Place.IsIndented`).

Texts and the words of the grammar open no bracket (`IsFlat`) and start no line (`IsQuiet`). Parts
of a container may start lines, but how these are indented does not depend on what comes behind the
part (`IsPart`).
-/
import JsonCodec.Proofs.Escapes

namespace JsonCodec

open Ascii Grammar

/-- Where a reader of a document is. -/
structure Place where
  /-- Whether he is within a text. -/
  inText : Bool := false
  /-- Whether there is a backslash right in front of him that escapes what is next. -/
  escaped : Bool := false
  /-- How many brackets are open. -/
  brackets : Nat := 0
deriving DecidableEq

/-- The brackets that open an array or an object. -/
def isOpening (b : UInt8) : Bool := b == bracketOpen || b == braceOpen

/-- The brackets that close an array or an object. -/
def isClosing (b : UInt8) : Bool := b == bracketClose || b == braceClose

namespace Place

/-- The place behind one more byte. -/
def step (s : Place) (b : UInt8) : Place :=
  if s.inText then
    if s.escaped then { s with escaped := false }
    else if b = backslash then { s with escaped := true }
    else if b = quote then { s with inText := false }
    else s
  else if b = quote then { s with inText := true }
  else if isOpening b then { s with brackets := s.brackets + 1 }
  else if isClosing b then { s with brackets := s.brackets - 1 }
  else s

/-- The place behind more bytes. -/
def run (s : Place) (bytes : Bytes) : Place := bytes.foldl step s

/-- The most brackets that are open at once in the course of the bytes. -/
def deepest (s : Place) : Bytes → Nat
  | [] => s.brackets
  | b :: bytes => max s.brackets ((s.step b).deepest bytes)

/-- How many spaces a line starts with. -/
def indentation (line : Bytes) : Nat := (line.takeWhile (· == space)).length

/-- Whether a line closes a bracket first thing. -/
def startsClosing (line : Bytes) : Bool := (line.dropWhile (· == space)).head?.any isClosing

/-- A line that starts here has two spaces for every open bracket but the one that it closes first
thing. -/
def Indents (s : Place) (line : Bytes) : Prop :=
  indentation line = 2 * (s.brackets - if startsClosing line then 1 else 0)

/-- Every line that starts in `bytes` outside a text is indented, where `rest` is behind them. -/
def IsIndented (s : Place) (bytes rest : Bytes) : Prop :=
  ∀ before after, bytes = before ++ lineFeed :: after → (s.run before).inText = false →
    (s.run before).Indents (after ++ rest)

variable {s : Place} {a b : Bytes} {rest bytes : Bytes} {x : UInt8}

@[simp] theorem run_nil (s : Place) : s.run [] = s := rfl

@[simp] theorem run_cons (s : Place) (x : UInt8) (bytes : Bytes) :
    s.run (x :: bytes) = (s.step x).run bytes := rfl

@[simp] theorem run_append (s : Place) (a b : Bytes) : s.run (a ++ b) = (s.run a).run b :=
  List.foldl_append

theorem brackets_le_deepest (s : Place) (bytes : Bytes) : s.brackets ≤ s.deepest bytes := by
  cases bytes with
  | nil => exact Nat.le_refl _
  | cons x bytes => exact Nat.le_max_left _ _

@[simp] theorem deepest_append (s : Place) (a b : Bytes) :
    s.deepest (a ++ b) = max (s.deepest a) ((s.run a).deepest b) := by
  induction a generalizing s with
  | nil => exact (Nat.max_eq_right (s.brackets_le_deepest b)).symm
  | cons x a ih => rw [List.cons_append, deepest, ih, deepest, run_cons, Nat.max_assoc]

@[simp] theorem isIndented_nil : s.IsIndented [] rest := by
  intro before after h
  cases before <;> cases h

theorem isIndented_cons : s.IsIndented (x :: bytes) rest ↔
    (x = lineFeed → s.inText = false → s.Indents (bytes ++ rest)) ∧
      (s.step x).IsIndented bytes rest := by
  constructor
  · intro h
    refine ⟨fun hx hs => h [] bytes (by rw [hx]; rfl) hs, fun before after hb hs => ?_⟩
    exact h (x :: before) after (by rw [hb]; rfl) hs
  · rintro ⟨hx, hmore⟩ before after hb hs
    cases before with
    | nil =>
      cases hb
      exact hx rfl hs
    | cons y before =>
      cases hb
      exact hmore before after rfl hs

theorem isIndented_append : s.IsIndented (a ++ b) rest ↔
    s.IsIndented a (b ++ rest) ∧ (s.run a).IsIndented b rest := by
  induction a generalizing s with
  | nil => simp
  | cons x a ih =>
    rw [List.cons_append, isIndented_cons, isIndented_cons, ih, run_cons, List.append_assoc,
      and_assoc]

/-! ## Bytes without brackets and lines -/

/-- Bytes that lead nowhere and open no brackets on the way. -/
structure IsFlat (s : Place) (bytes : Bytes) : Prop where
  run_eq : s.run bytes = s
  deepest_eq : s.deepest bytes = s.brackets

theorem IsFlat.nil : IsFlat s [] := ⟨rfl, rfl⟩

theorem IsFlat.append (ha : IsFlat s a) (hb : IsFlat s b) : IsFlat s (a ++ b) where
  run_eq := by rw [run_append, ha.run_eq, hb.run_eq]
  deepest_eq := by rw [deepest_append, ha.run_eq, ha.deepest_eq, hb.deepest_eq, Nat.max_self]

theorem isFlat_of_step (hs : s.step x = s) : IsFlat s [x] where
  run_eq := hs
  deepest_eq := by rw [deepest, hs, deepest, Nat.max_self]

theorem isFlat_of_forall (h : ∀ x ∈ bytes, IsFlat s [x]) : IsFlat s bytes := by
  induction bytes with
  | nil => exact .nil
  | cons x bytes ih =>
    obtain ⟨hx, hbytes⟩ := List.forall_mem_cons.1 h
    exact hx.append (ih hbytes)

/-- Bytes that are flat and start no line outside a text. -/
structure IsQuiet (s : Place) (bytes : Bytes) : Prop extends IsFlat s bytes where
  isIndented : ∀ rest, s.IsIndented bytes rest

theorem IsQuiet.nil : IsQuiet s [] := ⟨.nil, fun _ => isIndented_nil⟩

theorem IsQuiet.append (ha : IsQuiet s a) (hb : IsQuiet s b) : IsQuiet s (a ++ b) where
  toIsFlat := ha.toIsFlat.append hb.toIsFlat
  isIndented rest := by
    rw [isIndented_append, ha.run_eq]
    exact ⟨ha.isIndented _, hb.isIndented rest⟩

theorem isQuiet_of_step (hs : s.step x = s) (hx : s.inText = true ∨ x ≠ lineFeed) :
    IsQuiet s [x] where
  toIsFlat := isFlat_of_step hs
  isIndented rest := by
    refine isIndented_cons.2 ⟨fun hfeed hout => ?_, isIndented_nil⟩
    rcases hx with hin | hne
    · rw [hin] at hout
      cases hout
    · exact absurd hfeed hne

theorem isQuiet_of_forall (h : ∀ x ∈ bytes, IsQuiet s [x]) : IsQuiet s bytes := by
  induction bytes with
  | nil => exact .nil
  | cons x bytes ih =>
    obtain ⟨hx, hbytes⟩ := List.forall_mem_cons.1 h
    exact hx.append (ih hbytes)

/-- Outside a text, where so many brackets are open. -/
abbrev outside (k : Nat) : Place := { brackets := k }

/-- Within a text, where so many brackets are open. -/
abbrev inside (k : Nat) : Place := { inText := true, brackets := k }

variable {k : Nat}

theorem step_opening (h : isOpening x = true) : (outside k).step x = outside (k + 1) := by
  rw [isOpening, Bool.or_eq_true, beq_iff_eq, beq_iff_eq] at h
  rcases h with rfl | rfl <;> rfl

theorem step_closing (h : isClosing x = true) : (outside (k + 1)).step x = outside k := by
  rw [isClosing, Bool.or_eq_true, beq_iff_eq, beq_iff_eq] at h
  rcases h with rfl | rfl <;> rfl

/-! ## Texts -/

/-- A byte of a text that is neither a quote nor a backslash. -/
theorem isQuiet_inside (hq : x ≠ quote) (hb : x ≠ backslash) : IsQuiet (inside k) [x] := by
  refine isQuiet_of_step ?_ (.inl rfl)
  simp only [step, if_neg hq, if_neg hb, Bool.false_eq_true, ite_true, ite_false]

theorem isQuiet_escape (x : UInt8) : IsQuiet (inside k) [backslash, x] where
  run_eq := rfl
  deepest_eq := by simp [deepest, step]
  isIndented rest := by
    refine isIndented_cons.2 ⟨nofun, isIndented_cons.2 ⟨fun _ => nofun, isIndented_nil⟩⟩

/-- No hexadecimal digit ends a text or starts an escape. -/
theorem ne_of_mem_codeUnit {digits : Bytes} {n : Nat} (h : CodeUnit digits n) :
    ∀ x ∈ digits, x ≠ quote ∧ x ≠ backslash := by
  have digit {d : UInt8} {i : Nat} (hd : hexValue? d = some i) : d ≠ quote ∧ d ≠ backslash := by
    constructor <;>
      · rintro rfl
        cases hd
  cases h with
  | mk ha hb hc hd =>
    simp only [List.forall_mem_cons]
    exact ⟨digit ha, digit hb, digit hc, digit hd, List.forall_mem_nil _⟩

theorem isQuiet_codeUnit {digits : Bytes} {n : Nat} (h : CodeUnit digits n) :
    IsQuiet (inside k) digits := by
  refine isQuiet_of_forall fun x hx => ?_
  obtain ⟨hq, hb⟩ := ne_of_mem_codeUnit h x hx
  exact isQuiet_inside hq hb

theorem isQuiet_escaped {sequence : Bytes} {c : Char} (h : Escaped sequence c) :
    IsQuiet (inside k) (backslash :: sequence) := by
  cases h with
  | short h => exact isQuiet_escape _
  | unit h _ => exact (isQuiet_escape letterU).append (isQuiet_codeUnit h)
  | pair hh _ hl _ =>
    exact (isQuiet_escape letterU).append
      ((isQuiet_codeUnit hh).append ((isQuiet_escape letterU).append (isQuiet_codeUnit hl)))

/-- Nor does a byte of a character that stands for itself. -/
theorem ne_of_mem_plain {c : Char} (h : IsPlain c) :
    ∀ x ∈ String.utf8EncodeChar c, x ≠ quote ∧ x ≠ backslash := by
  intro x hx
  by_cases hc : c.toNat < 0x80
  · rw [Utf8.encodeChar_of_ascii hc, List.mem_singleton] at hx
    have ne {d : Char} (hd : d.toNat < 0x80) (hne : c ≠ d) : x ≠ UInt8.ofNat d.toNat := by
      intro heq
      have hn := congrArg UInt8.toNat (hx.symm.trans heq)
      rw [toNat_ofNat_of_ascii hc, toNat_ofNat_of_ascii hd] at hn
      exact hne (Char.toNat_inj.1 hn)
    exact ⟨ne (d := '"') (by decide) h.2.1, ne (d := '\\') (by decide) h.2.2⟩
  · have hle := Utf8.le_of_mem_encodeChar (Nat.le_of_not_lt hc) hx
    have ne {d : UInt8} (hd : d.toNat < 0x80) : x ≠ d := by
      rintro rfl
      omega
    exact ⟨ne (by decide), ne (by decide)⟩

theorem isQuiet_plain {c : Char} (h : IsPlain c) : IsQuiet (inside k) (String.utf8EncodeChar c) := by
  refine isQuiet_of_forall fun x hx => ?_
  obtain ⟨hq, hb⟩ := ne_of_mem_plain h x hx
  exact isQuiet_inside hq hb

theorem isQuiet_chars {bytes : Bytes} {chars : List Char} (h : Chars bytes chars) :
    IsQuiet (inside k) bytes := by
  induction h with
  | nil => exact .nil
  | plain hc _ ih => exact (isQuiet_plain hc).append ih
  | escape hs _ ih => exact (isQuiet_escaped hs).append ih

/-- **No line starts in a text.** -/
theorem isQuiet_text {literal : Bytes} {text : String} (h : Text literal text) :
    IsQuiet (outside k) literal := by
  cases h with
  | @mk bytes chars h =>
    have hquiet := isQuiet_chars (k := k) h
    have hopen : (outside k).step quote = inside k := rfl
    refine ⟨⟨?_, ?_⟩, fun rest => ?_⟩
    · rw [run_cons, hopen, run_append, hquiet.run_eq]
      rfl
    · have hclose : (inside k).step quote = outside k := rfl
      rw [deepest, hopen, deepest_append, hquiet.run_eq, hquiet.deepest_eq, deepest, hclose]
      simp [deepest]
    · refine isIndented_cons.2 ⟨nofun, isIndented_append.2 ⟨hquiet.isIndented _, ?_⟩⟩
      exact isIndented_cons.2 ⟨nofun, isIndented_nil⟩

/-! ## Tokens -/

/-- Bytes that start neither with a space nor with a closing bracket. -/
def IsBegun (bytes : Bytes) : Prop := ∃ x more, bytes = x :: more ∧ x ≠ space ∧ isClosing x = false

/-- A text or a word of the grammar. -/
structure IsToken (bytes : Bytes) : Prop where
  begun : IsBegun bytes
  quiet : ∀ k, IsQuiet (outside k) bytes

theorem isToken_text {literal : Bytes} {text : String} (h : Text literal text) : IsToken literal := by
  refine ⟨?_, fun k => isQuiet_text h⟩
  cases h with
  | mk => exact ⟨quote, _, rfl, by decide, rfl⟩

/-- A byte that is no blank, bracket or quote. -/
def isWordByte (x : UInt8) : Bool := !(isBlank x || x == quote || isOpening x || isClosing x)

theorem isWordByte_iff : isWordByte x = true ↔
    isBlank x = false ∧ x ≠ quote ∧ isOpening x = false ∧ isClosing x = false := by
  simp [isWordByte, and_assoc]

theorem isQuiet_wordByte (h : isWordByte x = true) : IsQuiet (outside k) [x] := by
  obtain ⟨hblank, hquote, hopen, hclose⟩ := isWordByte_iff.1 h
  refine isQuiet_of_step ?_ (.inr ?_)
  · simp only [step, if_neg hquote, hopen, hclose, Bool.false_eq_true, ite_false]
  · rintro rfl
    cases hblank

theorem isToken_word (hne : bytes ≠ []) (h : ∀ x ∈ bytes, isWordByte x = true) : IsToken bytes := by
  refine ⟨?_, fun k => isQuiet_of_forall fun x hx => isQuiet_wordByte (h x hx)⟩
  cases bytes with
  | nil => exact absurd rfl hne
  | cons x more =>
    obtain ⟨hblank, -, -, hclose⟩ := isWordByte_iff.1 (h x List.mem_cons_self)
    refine ⟨x, more, rfl, ?_, hclose⟩
    rintro rfl
    cases hblank

theorem isToken_number (n : Number) : IsToken n.bytes := by
  have word : ∀ x ∈ numberBytes, isWordByte x = true := List.all_eq_true.1 (by decide)
  refine isToken_word ?_ fun x hx => word x (n.mem_numberBytes x hx)
  rw [Number.bytes]
  simp [(Digits.isCanonical_iff.1 n.whole_ok).1]

/-! ## Parts -/

/-- A part of a container: it closes what it opens, and its lines are indented the same whatever is
behind it. -/
structure IsPart (bytes : Bytes) : Prop where
  begun : IsBegun bytes
  run_eq : ∀ k, (outside k).run bytes = outside k
  alone : ∀ k rest, (outside k).IsIndented bytes rest ↔ (outside k).IsIndented bytes []

theorem IsToken.isPart (h : IsToken bytes) : IsPart bytes where
  begun := h.begun
  run_eq k := (h.quiet k).run_eq
  alone k rest := iff_of_true ((h.quiet k).isIndented rest) ((h.quiet k).isIndented [])

end Place

end JsonCodec
