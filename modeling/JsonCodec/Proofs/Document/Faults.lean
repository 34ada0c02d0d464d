/-
What is wrong with a literal that is not read, and where: how far it is one, and what does not come
next. For each kind of literal this is said in both directions, so that a fault is known from the
bytes, and what the bytes are from a fault.
-/
import JsonCodec.Proofs.Document.Reading

namespace JsonCodec

open Ascii Grammar

/-- The reader fails at `c` with the fault `f`, wherever it leaves the cursor. -/
def ReadM.FailsWith {α : Type} (r : ReadM α) (c : Cursor) (f : Fault) : Prop :=
  ∃ c', r c = .error f c'

namespace ReadM

variable {α β : Type} {c : Cursor} {f : Fault} {r : ReadM α}

theorem failsWith_bind_iff {k : α → ReadM β} :
    (r >>= k).FailsWith c f ↔
      r.FailsWith c f ∨ ∃ a m, r c = .ok a m ∧ (k a).FailsWith m f := by
  simp only [FailsWith, bind, EStateM.bind]
  cases h : r c <;> simp

@[simp] theorem failsWith_unexpected_iff {reason : Reason} :
    (unexpected reason : ReadM α).FailsWith c f ↔ f = c.unexpected reason := by
  simp [FailsWith, eq_comm]

@[simp] theorem failsWith_failHere_iff {reason : Reason} :
    (failHere reason : ReadM α).FailsWith c f ↔ f = ⟨reason, c.pos⟩ := by
  constructor
  · rintro ⟨_, h⟩
    cases h
    rfl
  · rintro rfl
    exact ⟨c, rfl⟩

@[simp] theorem failsWith_pure_iff {a : α} : (pure a : ReadM α).FailsWith c f ↔ False :=
  iff_of_false (fun ⟨_, h⟩ => nomatch h) id

@[simp] theorem failsWith_skipBlanks_bind_iff {k : Unit → ReadM α} :
    (skipBlanks >>= k).FailsWith c f ↔ (k ()).FailsWith c.skipBlanks f := Iff.rfl

@[simp] theorem failsWith_peek_bind_iff {k : Option UInt8 → ReadM α} :
    (peek >>= k).FailsWith c f ↔ (k c.peek).FailsWith c f := Iff.rfl

@[simp] theorem failsWith_advance_bind_iff {n : Nat} {k : Unit → ReadM α} :
    (advance n >>= k).FailsWith c f ↔ (k ()).FailsWith (c.advance n) f := Iff.rfl

@[simp] theorem failsWith_get_bind_iff {k : Cursor → ReadM α} :
    (get >>= k).FailsWith c f ↔ (k c).FailsWith c f := Iff.rfl

@[simp] theorem failsWith_ite_iff {p : Prop} [Decidable p] {s : ReadM α} :
    (if p then r else s).FailsWith c f ↔ p ∧ r.FailsWith c f ∨ ¬p ∧ s.FailsWith c f := by
  by_cases hp : p <;> simp [hp]

/-- A reader that does not fail gives something. -/
theorem exists_ok_of_not_failsWith (h : ∀ f, ¬r.FailsWith c f) : ∃ a m, r c = .ok a m := by
  cases hr : r c with
  | ok a m => exact ⟨a, m, rfl⟩
  | error f m => exact absurd ⟨m, hr⟩ (h f)

theorem not_failsWith_of_ok {a : α} {m : Cursor} (h : r c = .ok a m) : ¬r.FailsWith c f := by
  rintro ⟨_, h'⟩
  rw [h] at h'
  cases h'

end ReadM

/-! ## Texts -/

namespace StringLiteral

/-- What is wrong with what comes next in a literal that was opened at `opened`. -/
inductive Broken (opened pos : Nat) : Bytes → Fault → Prop
  | ended : Broken opened pos [] ⟨.unterminatedString, opened⟩
  | cut {after : Bytes} (h : Escape.read after = .cut) :
    Broken opened pos (backslash :: after) ⟨.unterminatedString, opened⟩
  | escape {after : Bytes} {reason : Reason} {place stop : Nat}
    (h : Escape.read after = .bad reason place stop) :
    Broken opened pos (backslash :: after) ⟨reason, pos + place⟩
  | control {b : UInt8} {after : Bytes} (hb : isControl b = true) :
    Broken opened pos (b :: after) ⟨.controlCharacter, pos⟩
  | encoding {b : UInt8} {after : Bytes} (hr : isRun b = true) (hb : isControl b = false)
    (h : Utf8.next? (b :: after) = none) : Broken opened pos (b :: after) ⟨.invalidUtf8, pos⟩

variable {opened pos : Nat} {out : String} {bytes : Bytes} {f : Fault} {c : Cursor}

theorem plain_of_broken (h : Broken opened pos bytes f) : plain opened pos out bytes = .error f := by
  cases h with
  | ended => rw [plain]
  | cut h => rw [plain, if_neg (by decide), if_pos rfl, h]
  | escape h => rw [plain, if_neg (by decide), if_pos rfl, h]
  | @control b after hb =>
    have hq : b ≠ quote := by rintro rfl; cases hb
    have hs : b ≠ backslash := by rintro rfl; cases hb
    rw [plain, if_neg hq, if_neg hs, if_pos hb]
  | encoding hr hb h => rw [plain_of_next? _ _ _ _ hr hb, h]

/-- Whole characters are read, and then comes what is wrong. -/
theorem plain_eq_error_iff :
    plain opened pos out bytes = .error f ↔ ∃ done chars rest, bytes = done ++ rest ∧
      Chars done chars ∧ Broken opened (pos + done.length) rest f := by
  constructor
  · intro h
    fun_induction plain opened pos out bytes with
    | case1 =>
      cases h
      exact ⟨[], [], [], rfl, .nil, .ended⟩
    | case2 => cases h
    | case3 pos out after c length hr hq ih =>
      obtain ⟨done, chars, rest, hdrop, hc, hbroken⟩ := ih h
      obtain ⟨sequence, more, rfl, hs, rfl⟩ := Escape.read_eq_char_iff.1 hr
      rw [List.drop_left] at hdrop
      have hlen : pos + 1 + sequence.length + done.length =
          pos + (backslash :: (sequence ++ done)).length := by
        rw [List.length_cons, List.length_append]
        omega
      exact ⟨_, _, rest, by rw [hdrop]; simp, .escape hs hc, hlen ▸ hbroken⟩
    | case4 pos out after reason place stop hr hq =>
      cases h
      exact ⟨[], [], _, rfl, .nil, .escape hr⟩
    | case5 pos out after hr hq =>
      cases h
      exact ⟨[], [], _, rfl, .nil, .cut hr⟩
    | case6 pos out b after hq hs hb =>
      cases h
      exact ⟨[], [], _, rfl, .nil, .control hb⟩
    | case7 pos out b after hq hs hb hn =>
      cases h
      exact ⟨[], [], _, rfl, .nil, .encoding (isRun_iff.2 ⟨hq, hs⟩) (Bool.eq_false_iff.2 hb) hn⟩
    | case8 pos out b after hq hs hb c more hn ih =>
      obtain ⟨done, chars, rest, rfl, hc, hbroken⟩ := ih h
      have hb' := Utf8.next?_eq_some_iff.1 hn
      have hplain := isPlain_of_append hb' (isRun_iff.2 ⟨hq, hs⟩) (Bool.eq_false_iff.2 hb)
      have hlen : pos + (String.utf8EncodeChar c).length + done.length =
          pos + (String.utf8EncodeChar c ++ done).length := by
        rw [List.length_append, Nat.add_assoc]
      exact ⟨_, _, rest, by rw [hb', List.append_assoc], .plain hplain hc, hlen ▸ hbroken⟩
  · rintro ⟨done, chars, rest, rfl, hc, hbroken⟩
    rw [plain_append _ _ _ _ hc]
    exact plain_of_broken hbroken

/-- **A literal that is not read has whole characters, and then what is wrong.** -/
theorem read_failsWith_iff (hq : c.peek = some quote) :
    read.FailsWith c f ↔ ∃ done chars m, c.Passes (quote :: done) m ∧ Chars done chars ∧
      Broken c.pos m.pos m.rest f := by
  have hbody := outcome_body c.pos (c.advance 1).pos "" (c.advance 1).rest
  have hread : read.FailsWith c f ↔
      plain c.pos (c.advance 1).pos "" (c.advance 1).rest = .error f := by
    rw [← hbody, ReadM.FailsWith, read]
    cases body c.pos (c.advance 1).pos "" (c.advance 1).rest <;> simp [ReadM.outcome]
  rw [hread, plain_eq_error_iff]
  constructor
  · rintro ⟨done, chars, rest, hrest, hc, hbroken⟩
    exact ⟨done, chars, ⟨_, rest⟩, Cursor.passes_cons.2 ⟨hq, hrest, rfl⟩, hc, hbroken⟩
  · rintro ⟨done, chars, m, hp, hc, hbroken⟩
    obtain ⟨-, hrest, hpos⟩ := Cursor.passes_cons.1 hp
    exact ⟨done, chars, m.rest, hrest, hc, hpos ▸ hbroken⟩

end StringLiteral

/-! ## Numbers -/

namespace NumberLiteral

variable {c c' : Cursor} {f : Fault} {start : Nat}

/-- The front of a literal where a digit has to come `next`, and whether it is the first. -/
inductive DigitDue (next : Option UInt8) : (first : Bool) → Bytes → Prop
  | whole (negative : Bool) (h : negative = false → ∀ b ∈ next, (b == minus) = false) :
    DigitDue next true (if negative then [minus] else [])
  | fraction {whole : Bytes} (negative : Bool) (hw : Digits.isCanonical whole = true) :
    DigitDue next false ((if negative then [minus] else []) ++ whole ++ [point])
  | exponent {whole : Bytes} {fraction : Option Bytes} {letter : UInt8} {sign : Option UInt8}
    (negative : Bool) (hw : Digits.isCanonical whole = true)
    (hf : ∀ digits ∈ fraction, IsDigits digits) (hl : letter = letterE ∨ letter = capitalE)
    (hs : sign = none ∨ sign = some plus ∨ sign = some minus)
    (h : sign = none → ∀ b ∈ next, (b == plus || b == minus) = false) :
    DigitDue next false ((if negative then [minus] else []) ++ whole ++
      (fractionBytes fraction ++ letter :: sign.toList))

theorem readWhole_eq_error_iff :
    readWhole start c = .error f ↔ c.Stops isDigit ∧ f = noDigit c start := by
  unfold readWhole
  split
  · next b hb =>
    have hstops : c.Stops isDigit ↔ isDigit b = false :=
      ⟨fun h => h b hb, Cursor.stops_of_peek hb⟩
    rw [hstops]
    split
    · next hz => simp [hz, isDigit, zero]
    · split
      · next hd => simp [hd]
      · next hd => simp [hd, eq_comm]
  · next hn =>
    have hstops : c.Stops isDigit := fun b hb => by
      rw [hn] at hb
      cases hb
    simp [hstops, eq_comm]

theorem readDigits_eq_error_iff :
    readDigits c = .error f ↔ c.Stops isDigit ∧ f = noDigit c c.pos := by
  unfold readDigits
  split
  · next m h =>
    obtain ⟨hp, -, hs⟩ := Cursor.span_eq_iff.1 h
    obtain rfl := Cursor.passes_nil.1 hp
    simp [hs, eq_comm]
  · next found h =>
    simp only [reduceCtorEq, false_iff, not_and]
    intro hs
    exact absurd (Cursor.span_eq_iff.2 ⟨Cursor.passes_nil.2 rfl, List.forall_mem_nil _, hs⟩) (h c)

theorem readFraction_eq_error_iff :
    readFraction c = .error f ↔
      ∃ m, c.Passes [point] m ∧ m.Stops isDigit ∧ f = noDigit m m.pos := by
  have hfound : (∃ m, c.Passes [point] m ∧ m.Stops isDigit ∧ f = noDigit m m.pos) ↔
      c.peek = some point ∧ readDigits (c.advance 1) = .error f := by
    simp only [Cursor.passes_singleton, and_assoc, exists_and_left, exists_eq_left,
      readDigits_eq_error_iff]
  rw [hfound]
  unfold readFraction
  split
  · next hb =>
    simp only [hb, true_and, bind, Except.bind, pure, Except.pure]
    cases readDigits (c.advance 1) <;> simp
  · next hb => simp [hb, pure, Except.pure]

theorem readExponent_eq_error_iff :
    readExponent c = .error f ↔ ∃ letter sign m, (letter = letterE ∨ letter = capitalE) ∧
      (sign = none ∨ sign = some plus ∨ sign = some minus) ∧
      c.Passes (letter :: sign.toList) m ∧ (sign = none → m.Stops fun b => b == plus || b == minus) ∧
      m.Stops isDigit ∧ f = noDigit m m.pos := by
  unfold readExponent
  split
  · next h =>
    obtain ⟨letter, hletter, hpeek⟩ : ∃ b, (b = letterE ∨ b = capitalE) ∧ c.peek = some b := by
      rcases h with h | h
      · exact ⟨_, .inl rfl, h⟩
      · exact ⟨_, .inr rfl, h⟩
    generalize hm : (if (c.advance 1).peek = some plus then (false, (c.advance 1).advance 1)
      else readSign (c.advance 1)) = found
    obtain ⟨negative, m⟩ := found
    have hfound : (∃ letter sign m, (letter = letterE ∨ letter = capitalE) ∧
        (sign = none ∨ sign = some plus ∨ sign = some minus) ∧ c.Passes (letter :: sign.toList) m ∧
        (sign = none → m.Stops fun b => b == plus || b == minus) ∧ m.Stops isDigit ∧
        f = noDigit m m.pos) ↔ readDigits m = .error f := by
      rw [readDigits_eq_error_iff]
      constructor
      · rintro ⟨letter', sign', m', -, hsign', hp', hs', hd⟩
        have hm' := exponentSign_iff.2 ⟨sign', hsign', rfl, (Cursor.passes_cons.1 hp').2, hs'⟩
        rw [hm] at hm'
        obtain ⟨-, rfl⟩ := Prod.mk.inj hm'
        exact hd
      · obtain ⟨sign, hsign, -, hp, hs⟩ := exponentSign_iff.1 hm
        have hpe := Cursor.passes_cons.2 ⟨hpeek, hp⟩
        exact fun hd => ⟨letter, sign, m, hletter, hsign, hpe, hs, hd⟩
    rw [hfound]
    simp only [bind, Except.bind, pure, Except.pure, hm]
    cases readDigits m <;> simp
  · next h =>
    simp only [pure, Except.pure, reduceCtorEq, false_iff, not_exists, not_and]
    intro letter sign m hletter _ hp
    have hpeek : c.peek = some letter := hp.peek (List.cons_ne_nil letter _)
    rw [hpeek, Option.some.injEq, Option.some.injEq] at h
    exact absurd hletter h

theorem exists_of_parts_eq_error (h : parts c = .error f) :
    ∃ first front m, DigitDue m.peek first front ∧ c.Passes front m ∧ m.Stops isDigit ∧
      f = noDigit m (if first then c.pos else m.pos) := by
  simp only [parts] at h
  generalize hs : readSign c = found at h
  obtain ⟨negative, c₁⟩ := found
  obtain ⟨ps, ss⟩ := readSign_eq_iff.1 hs
  cases hw : readWhole c.pos c₁ with
  | error fault =>
    simp only [hw, bind, Except.bind, Except.error.injEq] at h
    obtain ⟨hd, rfl⟩ := readWhole_eq_error_iff.1 hw
    exact ⟨true, _, c₁, .whole negative ss, ps, hd, h.symm⟩
  | ok found =>
  obtain ⟨whole, c₂⟩ := found
  obtain ⟨pw, hwhole, -⟩ := readWhole_eq_ok_iff.1 hw
  cases hf : readFraction c₂ with
  | error fault =>
    simp only [hw, hf, bind, Except.bind, Except.error.injEq] at h
    obtain ⟨m, hp, hd, rfl⟩ := readFraction_eq_error_iff.1 hf
    exact ⟨false, _, m, .fraction negative hwhole, (ps.trans pw).trans hp, hd, h.symm⟩
  | ok found =>
  obtain ⟨fraction, c₃⟩ := found
  obtain ⟨pf, hfraction, -⟩ := readFraction_eq_ok_iff.1 hf
  cases he : readExponent c₃ with
  | error fault =>
    simp only [hw, hf, he, bind, Except.bind, Except.error.injEq] at h
    obtain ⟨letter, sign, m, hletter, hsign, hp, hstop, hd, rfl⟩ := readExponent_eq_error_iff.1 he
    exact ⟨false, _, m, .exponent negative hwhole hfraction hletter hsign hstop,
      (ps.trans pw).trans (pf.trans hp), hd, h.symm⟩
  | ok found => simp [hw, hf, he, bind, Except.bind, pure, Except.pure] at h

theorem parts_of_digitDue {first : Bool} {front : Bytes} {m : Cursor}
    (h : DigitDue m.peek first front) (hp : c.Passes front m) (hd : m.Stops isDigit) :
    parts c = .error (noDigit m (if first then c.pos else m.pos)) := by
  have noMinus {m₁ m₂ : Cursor} {whole : Bytes} (hw : Digits.isCanonical whole = true)
      (pw : m₁.Passes whole m₂) : m₁.Stops (· == minus) := by
    obtain ⟨hne, hall, -⟩ := Digits.isCanonical_iff.1 hw
    exact stops_of_digits pw ⟨hne, hall⟩ fun b hb => beq_false_of_ne (by rintro rfl; cases hb)
  cases h with
  | whole negative hs =>
    have rsign := readSign_eq_iff.2 ⟨hp, hs⟩
    simp only [parts, rsign, readWhole_eq_error_iff.2 ⟨hd, rfl⟩, bind, Except.bind, ite_true]
  | @fraction whole negative hw =>
    obtain ⟨c₂, h₂, pf⟩ := Cursor.passes_append.1 hp
    obtain ⟨c₁, ps, pw⟩ := Cursor.passes_append.1 h₂
    have rsign := readSign_eq_iff.2 ⟨ps, fun _ => noMinus hw pw⟩
    have hstop : c₂.Stops isDigit :=
      Cursor.stops_of_peek (pf.peek (List.cons_ne_nil point _)) rfl
    have rwhole : readWhole c.pos c₁ = .ok (whole, c₂) :=
      readWhole_eq_ok_iff.2 ⟨pw, hw, fun _ => hstop⟩
    have rfraction := readFraction_eq_error_iff.2 ⟨m, pf, hd, rfl⟩
    simp only [parts, rsign, rwhole, rfraction, bind, Except.bind, Bool.false_eq_true, ite_false]
  | @exponent whole fraction letter sign negative hw hf hl hs hstop =>
    obtain ⟨c₂, h₂, h₄⟩ := Cursor.passes_append.1 hp
    obtain ⟨c₁, ps, pw⟩ := Cursor.passes_append.1 h₂
    obtain ⟨c₃, pf, pe⟩ := Cursor.passes_append.1 h₄
    have hletter {p : UInt8 → Bool} (hE : p letterE = false) (hcE : p capitalE = false) :
        c₃.Stops p :=
      Cursor.stops_of_peek (pe.peek (List.cons_ne_nil letter _)) (by
        rcases hl with rfl | rfl <;> assumption)
    have rsign := readSign_eq_iff.2 ⟨ps, fun _ => noMinus hw pw⟩
    have hwhole : c₂.Stops isDigit := by
      refine pf.stops (fun b hb => ?_) (hletter rfl rfl)
      cases fraction with
      | none => cases hb
      | some digits =>
        cases hb
        rfl
    have rwhole : readWhole c.pos c₁ = .ok (whole, c₂) :=
      readWhole_eq_ok_iff.2 ⟨pw, hw, fun _ => hwhole⟩
    have rfraction : readFraction c₂ = .ok (fraction, c₃) :=
      readFraction_eq_ok_iff.2 ⟨pf, hf, hletter (by split <;> rfl) (by split <;> rfl)⟩
    have rexponent := readExponent_eq_error_iff.2 ⟨letter, sign, m, hl, hs, pe, hstop, hd, rfl⟩
    simp only [parts, rsign, rwhole, rfraction, rexponent, bind, Except.bind, Bool.false_eq_true,
      ite_false]

/-- **A literal is malformed just if it has a front where a digit has to come and none does.** -/
theorem parts_eq_error_iff :
    parts c = .error f ↔ ∃ first front m, DigitDue m.peek first front ∧ c.Passes front m ∧
      m.Stops isDigit ∧ f = noDigit m (if first then c.pos else m.pos) := by
  constructor
  · exact exists_of_parts_eq_error
  · rintro ⟨first, front, m, h, hp, hd, rfl⟩
    exact parts_of_digitDue h hp hd

/-- A literal is not read if it is malformed, or is well-formed and has no value. -/
theorem read_failsWith_iff :
    read.FailsWith c f ↔ parts c = .error f ∨ ∃ n : Number, ∃ m, c.Passes n.bytes m ∧
      m.Stops (ofGrammar n).goesOn ∧ (ofGrammar n).value? = none ∧ f = ⟨.numberOutOfRange, c.pos⟩ := by
  simp only [ReadM.FailsWith, read]
  cases hparts : parts c with
  | error fault =>
    simp only [EStateM.Result.error.injEq, Except.error.injEq]
    constructor
    · rintro ⟨_, rfl, -⟩
      exact .inl rfl
    · rintro (rfl | ⟨n, m, hp, hs, -⟩)
      · exact ⟨c, rfl, rfl⟩
      · rw [parts_of_passes hp hs] at hparts
        cases hparts
  | ok found =>
    obtain ⟨l, m⟩ := found
    simp only [reduceCtorEq, false_or]
    obtain ⟨n, rfl, hp, hs⟩ := exists_of_parts hparts
    constructor
    · intro h
      cases hv : (ofGrammar n).value? with
      | none =>
        simp only [hv, EStateM.Result.error.injEq, exists_eq_right'] at h
        obtain ⟨_, rfl, -⟩ := h
        exact ⟨n, m, hp, hs, hv, rfl⟩
      | some v => simp [hv] at h
    · rintro ⟨n', m', hp', hs', hv, rfl⟩
      rw [parts_of_passes hp' hs'] at hparts
      obtain ⟨hn, rfl⟩ := Prod.mk.inj (Except.ok.inj hparts)
      rw [← hn, hv]
      exact ⟨_, rfl⟩

end NumberLiteral

/-! ## Words -/

/-- A word is not read if the document ends inside it, or has another byte there. -/
theorem Document.word_failsWith_iff {text : Bytes} {v : Value} {c : Cursor} {f : Fault} :
    (Document.word text v).FailsWith c f ↔
      (∃ more, more ≠ [] ∧ text = c.rest ++ more) ∧ f = ⟨.unexpectedEnd, c.pos + c.rest.length⟩ ∨
      (∀ more, text ≠ c.rest ++ more) ∧ (∀ more, c.rest ≠ text ++ more) ∧
        f = ⟨.expectedValue, c.pos⟩ := by
  simp only [ReadM.FailsWith, Document.word, Cursor.eat?]
  by_cases hp : text.isPrefixOf c.rest = true
  · obtain ⟨after, ha⟩ := List.isPrefixOf_iff_prefix.1 hp
    simp only [if_pos hp, reduceCtorEq, exists_false, false_iff, not_or, not_and]
    constructor
    · rintro ⟨more, hne, hm⟩
      have hlen := congrArg List.length ha
      have hlen' := congrArg List.length hm
      have hpos := List.length_pos_iff.2 hne
      rw [List.length_append] at hlen hlen'
      omega
    · intro _ h
      exact absurd ha.symm (h after)
  · have hno (more : Bytes) : c.rest ≠ text ++ more := fun h =>
      hp (List.isPrefixOf_iff_prefix.2 ⟨more, h.symm⟩)
    simp only [if_neg hp]
    by_cases hr : c.rest.isPrefixOf text = true
    · obtain ⟨more, hm⟩ := List.isPrefixOf_iff_prefix.1 hr
      have hne : more ≠ [] := by
        rintro rfl
        exact hno [] (by simpa using hm)
      simp only [if_pos hr, EStateM.Result.error.injEq]
      constructor
      · rintro ⟨_, rfl, -⟩
        exact .inl ⟨⟨more, hne, hm.symm⟩, rfl⟩
      · rintro (⟨-, rfl⟩ | ⟨h, -⟩)
        · exact ⟨_, rfl, rfl⟩
        · exact absurd hm.symm (h more)
    · have hno' (more : Bytes) : text ≠ c.rest ++ more := fun h =>
        hr (List.isPrefixOf_iff_prefix.2 ⟨more, h.symm⟩)
      simp only [if_neg hr, EStateM.Result.error.injEq]
      constructor
      · rintro ⟨_, rfl, -⟩
        exact .inr ⟨hno', hno, rfl⟩
      · rintro (⟨⟨more, -, h⟩, -⟩ | ⟨-, -, rfl⟩)
        · exact absurd h (hno' more)
        · exact ⟨_, rfl, rfl⟩

end JsonCodec
