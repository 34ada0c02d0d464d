/-
Reading string literals.

The reader takes runs of bytes at once. Character by character (`plain`) the same comes out
(`outcome_body`), a fault and its place too, and that reader is compared with the grammar.
-/
import JsonCodec.Proofs.Document.Cursor
import JsonCodec.Proofs.Document.Escape
import JsonCodec.Proofs.Utf8

namespace JsonCodec

/-- How a reader ended, without the place where it was when it failed. -/
def ReadM.outcome {α : Type} : EStateM.Result Fault Cursor α → Except Fault (α × Cursor)
  | .ok a c => .ok (a, c)
  | .error fault _ => .error fault

namespace StringLiteral

open Ascii Grammar

/-- Reads on from inside a literal, character by character. -/
def plain (opened pos : Nat) (out : String) (bytes : Bytes) : Except Fault (String × Cursor) :=
  match bytes with
  | [] => .error ⟨.unterminatedString, opened⟩
  | b :: after =>
    if b = quote then .ok (out, ⟨pos + 1, after⟩)
    else if b = backslash then
      match Escape.read after with
      | .char c length => plain opened (pos + 1 + length) (out.push c) (after.drop length)
      | .bad reason place _ => .error ⟨reason, pos + place⟩
      | .cut => .error ⟨.unterminatedString, opened⟩
    else if isControl b then .error ⟨.controlCharacter, pos⟩
    else
      match _h : Utf8.next? (b :: after) with
      | none => .error ⟨.invalidUtf8, pos⟩
      | some (c, rest) =>
        plain opened (pos + (String.utf8EncodeChar c).length) (out.push c) rest
termination_by bytes.length
decreasing_by
  · simp only [List.length_drop, List.length_cons]
    omega
  · exact Utf8.length_lt_of_next? _h

/-! ## Runs -/

theorem decodeRun_nil (out : String) (pos : Nat) : decodeRun out pos [] = .ok out := by
  have hn : Utf8.next? [] = none := rfl
  simp [decodeRun, Utf8.decodeOnto_of_next? out hn]

theorem decodeRun_of_control {b : UInt8} (out : String) (pos : Nat) (run : Bytes)
    (h : isControl b = true) : decodeRun out pos (b :: run) = .error ⟨.controlCharacter, pos⟩ := by
  have hn : Utf8.next? [] = none := rfl
  simp [decodeRun, h, Utf8.decodeOnto_of_next? out hn]

/-- Where no character begins, a run goes no further. -/
theorem decodeRun_of_next?_eq_none {b : UInt8} {run : Bytes} (out : String) (pos : Nat)
    (hb : isControl b = false) (h : Utf8.next? (b :: run) = none) :
    decodeRun out pos (b :: run) = .error ⟨.invalidUtf8, pos⟩ := by
  have hclean : (b :: run).takeWhile (!isControl ·) = b :: run.takeWhile (!isControl ·) := by
    simp [hb]
  have hn : Utf8.next? (b :: run.takeWhile (!isControl ·)) = none := by
    rw [← List.takeWhile_append_dropWhile (p := (!isControl ·)) (l := run)] at h
    exact Utf8.next?_eq_none_of_append h
  simp [decodeRun, hclean, Utf8.decodeOnto_of_next? out hn]

theorem isRun_iff {b : UInt8} : isRun b = true ↔ b ≠ quote ∧ b ≠ backslash := by simp [isRun]

/-- A byte beyond ASCII is copied as it is. -/
theorem isRun_of_le {b : UInt8} (h : 0x80 ≤ b.toNat) : isRun b = true ∧ isControl b = false := by
  have hq : b ≠ quote := by rintro rfl; exact absurd h (by decide)
  have hb : b ≠ backslash := by rintro rfl; exact absurd h (by decide)
  refine ⟨by simp [isRun, hq, hb], ?_⟩
  simp only [isControl, decide_eq_false_iff_not, UInt8.lt_iff_toNat_lt, Nat.not_lt]
  exact Nat.le_trans (by decide) h

theorem isControl_ofNat {n : Nat} (h : n < 0x80) : isControl (UInt8.ofNat n) = decide (n < 0x20) := by
  simp only [isControl, UInt8.lt_iff_toNat_lt, UInt8.toNat_ofNat']
  rw [Nat.mod_eq_of_lt (by omega)]
  rfl

theorem isRun_ofNat {c : Char} (h : c.toNat < 0x80) :
    isRun (UInt8.ofNat c.toNat) = decide (c ≠ '"' ∧ c ≠ '\\') := by
  have hn {d : Char} (hd : d.toNat < 0x80) : UInt8.ofNat c.toNat = UInt8.ofNat d.toNat ↔ c = d := by
    rw [← UInt8.toNat_inj, UInt8.toNat_ofNat', UInt8.toNat_ofNat', Nat.mod_eq_of_lt (by omega),
      Nat.mod_eq_of_lt (by omega), Char.toNat_inj]
  have hq : UInt8.ofNat c.toNat = quote ↔ c = '"' := hn (d := '"') (by decide)
  have hb : UInt8.ofNat c.toNat = backslash ↔ c = '\\' := hn (d := '\\') (by decide)
  rw [Bool.eq_iff_iff, decide_eq_true_eq, isRun_iff, ne_eq, hq, ne_eq, hb]

/-- A character is plain just if no byte of it is a control character, quote or backslash. Of a
character with more than one byte none is. -/
theorem isPlain_iff {c : Char} :
    IsPlain c ↔ ∀ b ∈ String.utf8EncodeChar c, isRun b = true ∧ isControl b = false := by
  by_cases h : c.toNat < 0x80
  · simp only [Utf8.encodeChar_of_ascii h, List.mem_singleton, forall_eq, isRun_ofNat h,
      isControl_ofNat h, decide_eq_true_eq, decide_eq_false_iff_not, Nat.not_lt, IsPlain]
    tauto
  · have hp (d : Char) (hd : d.toNat < 0x80) : c ≠ d := by
      rintro rfl
      exact h hd
    have hs : IsPlain c := ⟨by omega, hp _ (by decide), hp _ (by decide)⟩
    simp only [hs, true_iff]
    exact fun b hb => isRun_of_le (Utf8.le_of_mem_encodeChar (Nat.le_of_not_lt h) hb)

/-- The first byte of a character tells whether it is plain. -/
theorem isPlain_of_append {c : Char} {b : UInt8} {bytes rest : Bytes}
    (h : b :: bytes = String.utf8EncodeChar c ++ rest) (hr : isRun b = true)
    (hb : isControl b = false) : IsPlain c := by
  refine isPlain_iff.2 fun x hx => ?_
  by_cases ha : c.toNat < 0x80
  · rw [Utf8.encodeChar_of_ascii ha] at h hx
    rw [List.mem_singleton.1 hx, ← (List.cons.inj h).1]
    exact ⟨hr, hb⟩
  · exact isRun_of_le (Utf8.le_of_mem_encodeChar (Nat.le_of_not_lt ha) hx)

theorem decodeRun_encodeChar {c : Char} (out : String) (pos : Nat) (run : Bytes)
    (h : IsPlain c) :
    decodeRun out pos (String.utf8EncodeChar c ++ run) =
      decodeRun (out.push c) (pos + (String.utf8EncodeChar c).length) run := by
  have hclean : (String.utf8EncodeChar c ++ run).takeWhile (!isControl ·) =
      String.utf8EncodeChar c ++ run.takeWhile (!isControl ·) :=
    List.takeWhile_append_of_pos fun b hb => by rw [(isPlain_iff.1 h b hb).2]; rfl
  have hle := Utf8.length_decodeOnto_le (out.push c) (run.takeWhile (!isControl ·))
  simp only [decodeRun, hclean, Utf8.decodeOnto_encodeChar, List.length_append,
    Nat.add_lt_add_iff_left, ← Nat.add_assoc]
  split
  · rfl
  · next h =>
    rw [h] at hle
    rw [Nat.add_assoc pos, ← Nat.add_sub_assoc hle]

/-- Where no character begins in a run, none does with what stands behind the run. -/
theorem next?_append_of_run {bytes tail : Bytes} (hb : bytes ≠ [])
    (ht : ∀ b ∈ tail.head?, isRun b = false) (h : Utf8.next? bytes = none) :
    Utf8.next? (bytes ++ tail) = none := by
  cases hn : Utf8.next? (bytes ++ tail) with
  | none => rfl
  | some found =>
    obtain ⟨c, rest⟩ := found
    rcases List.append_eq_append_iff.1 (Utf8.next?_eq_some_iff.1 hn) with
      ⟨more, hc, htail⟩ | ⟨more, hbytes, -⟩
    · cases more with
      | nil =>
        rw [List.append_nil] at hc
        rw [← hc, ← List.append_nil (String.utf8EncodeChar c), Utf8.next?_encodeChar] at h
        cases h
      | cons b more =>
        -- The byte behind the run is ASCII, so it is no part of a longer sequence.
        have hrun : isRun b = false := ht b (by rw [htail]; rfl)
        by_cases ha : c.toNat < 0x80
        · rw [Utf8.encodeChar_of_ascii ha] at hc
          have hlen := congrArg List.length hc
          have hpos := List.length_pos_iff.2 hb
          simp only [List.length_append, List.length_cons, List.length_nil] at hlen
          omega
        · have hmem : b ∈ String.utf8EncodeChar c := by simp [hc]
          have := (isRun_of_le (Utf8.le_of_mem_encodeChar (Nat.le_of_not_lt ha) hmem)).1
          rw [this] at hrun
          cases hrun
    · rw [hbytes, Utf8.next?_encodeChar] at h
      cases h

/-! ## Character by character -/

theorem plain_of_next? {b : UInt8} (opened pos : Nat) (out : String) (after : Bytes)
    (hr : isRun b = true) (hb : isControl b = false) :
    plain opened pos out (b :: after) =
      match Utf8.next? (b :: after) with
      | none => .error ⟨.invalidUtf8, pos⟩
      | some (c, rest) =>
        plain opened (pos + (String.utf8EncodeChar c).length) (out.push c) rest := by
  obtain ⟨hq, hs⟩ := isRun_iff.1 hr
  rw [plain, if_neg hq, if_neg hs, hb, if_neg Bool.false_ne_true]
  split <;> next h => rw [h]

theorem plain_encodeChar {c : Char} (opened pos : Nat) (out : String) (bytes : Bytes)
    (h : IsPlain c) :
    plain opened pos out (String.utf8EncodeChar c ++ bytes) =
      plain opened (pos + (String.utf8EncodeChar c).length) (out.push c) bytes := by
  have hn := Utf8.next?_encodeChar c bytes
  obtain ⟨b, tail, hc, -⟩ := Utf8.exists_sequence c
  obtain ⟨hr, hb⟩ := isPlain_iff.1 h b (by simp [hc])
  rw [hc, List.cons_append] at hn ⊢
  rw [plain_of_next? _ _ _ _ hr hb, hn, ← hc]

/-- Character by character, a run comes to what it comes to at once. -/
theorem plain_append_run (opened pos : Nat) (out : String) {run tail : Bytes}
    (hr : ∀ b ∈ run, isRun b = true) (ht : ∀ b ∈ tail.head?, isRun b = false) :
    plain opened pos out (run ++ tail) =
      match decodeRun out pos run with
      | .ok out => plain opened (pos + run.length) out tail
      | .error fault => .error fault := by
  match run with
  | [] => rw [decodeRun_nil]; rfl
  | b :: run =>
    obtain ⟨hb, -⟩ := List.forall_mem_cons.1 hr
    cases hcontrol : isControl b with
    | true =>
      obtain ⟨hq, hs⟩ := isRun_iff.1 hb
      rw [decodeRun_of_control out pos run hcontrol, List.cons_append, plain, if_neg hq, if_neg hs,
        if_pos hcontrol]
    | false =>
      cases hn : Utf8.next? (b :: run) with
      | none =>
        rw [decodeRun_of_next?_eq_none out pos hcontrol hn, List.cons_append,
          plain_of_next? _ _ _ _ hb hcontrol, ← List.cons_append,
          next?_append_of_run (List.cons_ne_nil b run) ht hn]
      | some found =>
        obtain ⟨c, rest⟩ := found
        have hc := Utf8.next?_eq_some_iff.1 hn
        have hlt := Utf8.length_lt_of_next? hn
        have hplain := isPlain_of_append hc hb hcontrol
        have ih := plain_append_run opened (pos + (String.utf8EncodeChar c).length) (out.push c)
          (fun x hx => hr x (by rw [hc]; exact List.mem_append_right _ hx)) ht
        rw [hc, List.append_assoc, plain_encodeChar _ _ _ _ hplain, ih,
          decodeRun_encodeChar _ _ _ hplain, List.length_append, Nat.add_assoc]
termination_by run.length
decreasing_by exact hlt

theorem plain_eq (opened pos : Nat) (out : String) (bytes : Bytes) :
    plain opened pos out bytes =
      match decodeRun out pos (bytes.takeWhile isRun) with
      | .ok out =>
        plain opened (pos + (bytes.takeWhile isRun).length) out (bytes.dropWhile isRun)
      | .error fault => .error fault := by
  have hr : ∀ b ∈ bytes.takeWhile isRun, isRun b = true := fun _ => List.mem_takeWhile_imp
  have ht : ∀ b ∈ (bytes.dropWhile isRun).head?, isRun b = false := by
    intro b hb
    have hn := List.head?_dropWhile_not isRun bytes
    rw [hb] at hn
    simpa using hn
  have h := plain_append_run opened pos out hr ht
  rwa [List.takeWhile_append_dropWhile] at h

/-- **Run by run, the reader does what it would do character by character.** -/
theorem outcome_body (opened pos : Nat) (out : String) (bytes : Bytes) :
    ReadM.outcome (body opened pos out bytes) = plain opened pos out bytes := by
  -- What stands behind a run and is no quote is a backslash.
  have backslash_of {b : UInt8} {after : Bytes} {bytes : Bytes} (hq : b ≠ quote)
      (h : bytes.dropWhile isRun = b :: after) : b = backslash := by
    have hn := List.head?_dropWhile_not isRun bytes
    rw [h] at hn
    simpa [isRun, hq] using hn
  fun_induction body opened pos out bytes with
  | case1 pos out bytes run fault h => rw [plain_eq, h]; rfl
  | case2 pos out bytes run out' h hd =>
    rw [plain_eq, h, hd]
    simp only [plain]
    rfl
  | case3 pos out bytes run out' h after mark hd =>
    rw [plain_eq, h, hd]
    simp only [plain, ite_true]
    rfl
  | case4 pos out bytes run out' h b after hd mark hq c length hc ih =>
    obtain rfl := backslash_of hq hd
    rw [ih, plain_eq _ pos, h, hd]
    simp only
    rw [plain, if_neg hq, if_pos rfl, hc]
  | case5 pos out bytes run out' h b after hd mark hq reason place stop he =>
    obtain rfl := backslash_of hq hd
    rw [plain_eq, h, hd]
    simp only
    rw [plain, if_neg hq, if_pos rfl, he]
    rfl
  | case6 pos out bytes run out' h b after hd mark hq he =>
    obtain rfl := backslash_of hq hd
    rw [plain_eq, h, hd]
    simp only
    rw [plain, if_neg hq, if_pos rfl, he]
    rfl

/-! ## The grammar -/

theorem plain_escape {sequence : Bytes} {c : Char} (opened pos : Nat) (out : String)
    (bytes : Bytes) (h : Escaped sequence c) :
    plain opened pos out (backslash :: (sequence ++ bytes)) =
      plain opened (pos + 1 + sequence.length) (out.push c) bytes := by
  have hr := Escape.read_eq_char_iff.2 ⟨sequence, bytes, rfl, h, rfl⟩
  rw [plain, if_neg (by decide), if_pos rfl, hr]
  simp only [List.drop_left]

theorem push_append_ofList (out : String) (c : Char) (chars : List Char) :
    out.push c ++ String.ofList chars = out ++ String.ofList (c :: chars) := by
  simp [← String.toList_inj]

/-- Whole characters are read as the text that they denote. -/
theorem plain_append {inside : Bytes} {chars : List Char} (opened pos : Nat) (out : String)
    (bytes : Bytes) (h : Chars inside chars) :
    plain opened pos out (inside ++ bytes) =
      plain opened (pos + inside.length) (out ++ String.ofList chars) bytes := by
  induction h generalizing pos out with
  | nil => simp
  | plain h _ ih =>
    rw [List.append_assoc, plain_encodeChar _ _ _ _ h, ih, push_append_ofList, List.length_append,
      Nat.add_assoc pos]
  | @escape sequence inside c chars h _ ih =>
    have hpos : pos + 1 + sequence.length + inside.length =
        pos + (backslash :: (sequence ++ inside)).length := by
      rw [List.length_cons, List.length_append]
      omega
    rw [List.cons_append, List.append_assoc, plain_escape _ _ _ _ h, ih, push_append_ofList, hpos]

theorem plain_of_chars {inside : Bytes} {chars : List Char} (opened pos : Nat) (out : String)
    (after : Bytes) (h : Chars inside chars) :
    plain opened pos out (inside ++ quote :: after) =
      .ok (out ++ String.ofList chars, ⟨pos + inside.length + 1, after⟩) := by
  rw [plain_append _ _ _ _ h, plain, if_pos rfl]

theorem exists_chars_of_plain {opened pos : Nat} {out text : String} {bytes : Bytes} {c' : Cursor}
    (h : plain opened pos out bytes = .ok (text, c')) :
    ∃ inside chars, Chars inside chars ∧ Cursor.Passes ⟨pos, bytes⟩ (inside ++ [quote]) c' ∧
      text = out ++ String.ofList chars := by
  fun_induction plain opened pos out bytes with
  | case1 => cases h
  | case2 pos out after =>
    cases h
    exact ⟨[], [], .nil, ⟨rfl, rfl⟩, by simp⟩
  | case3 pos out after c length hr hq ih =>
    obtain ⟨inside, chars, hc, hp, rfl⟩ := ih h
    obtain ⟨sequence, more, rfl, hs, rfl⟩ := Escape.read_eq_char_iff.1 hr
    rw [List.drop_left] at hp
    refine ⟨backslash :: (sequence ++ inside), c :: chars, .escape hs hc, ?_,
      push_append_ofList ..⟩
    have hfront : Cursor.Passes ⟨pos, backslash :: (sequence ++ more)⟩ (backslash :: sequence)
        ⟨pos + 1 + sequence.length, more⟩ :=
      ⟨rfl, by rw [List.length_cons, Nat.add_assoc, Nat.add_comm 1]⟩
    simpa using hfront.trans hp
  | case4 => cases h
  | case5 => cases h
  | case6 => cases h
  | case7 => cases h
  | case8 pos out b after hq hs hcontrol c rest hn ih =>
    obtain ⟨inside, chars, hc, hp, rfl⟩ := ih h
    have hb := Utf8.next?_eq_some_iff.1 hn
    refine ⟨String.utf8EncodeChar c ++ inside, c :: chars, .plain ?_ hc, ?_, push_append_ofList ..⟩
    · exact isPlain_of_append hb (isRun_iff.2 ⟨hq, hs⟩) (Bool.eq_false_iff.2 hcontrol)
    · have hfront : Cursor.Passes ⟨pos, b :: after⟩ (String.utf8EncodeChar c)
          ⟨pos + (String.utf8EncodeChar c).length, rest⟩ := ⟨hb, rfl⟩
      simpa using hfront.trans hp

/-- **The reader takes the string literals of the grammar, as the texts that they denote.** -/
theorem read_eq_ok_iff {c c' : Cursor} {text : String} (hc : c.peek = some quote) :
    read c = .ok text c' ↔ ∃ literal, c.Passes literal c' ∧ Text literal text := by
  have hfront : c.Passes [quote] (c.advance 1) := Cursor.passes_singleton.2 ⟨hc, rfl⟩
  have hbody := outcome_body c.pos (c.advance 1).pos "" (c.advance 1).rest
  have hread : read c = .ok text c' ↔
      plain c.pos (c.advance 1).pos "" (c.advance 1).rest = .ok (text, c') := by
    rw [← hbody, read]
    cases body c.pos (c.advance 1).pos "" (c.advance 1).rest <;> simp [ReadM.outcome]
  rw [hread]
  constructor
  · intro h
    obtain ⟨inside, chars, hchars, hp, rfl⟩ := exists_chars_of_plain h
    refine ⟨quote :: (inside ++ [quote]), hfront.trans hp, ?_⟩
    rw [String.empty_append]
    exact .mk hchars
  · rintro ⟨_, hp, @⟨inside, chars, hchars⟩⟩
    obtain ⟨m, hm, hp⟩ := Cursor.passes_append.1 (show c.Passes ([quote] ++ (inside ++ [quote])) c' from hp)
    obtain rfl := (Cursor.passes_singleton.1 hm).2
    have hplain := plain_of_chars c.pos (c.advance 1).pos "" c'.rest hchars
    rw [hp.1, List.append_assoc, List.singleton_append, hplain, String.empty_append]
    obtain ⟨pos, rest⟩ := c'
    have hpos := hp.2
    rw [List.length_append, List.length_singleton, ← Nat.add_assoc] at hpos
    rw [← hpos]

end StringLiteral

end JsonCodec
