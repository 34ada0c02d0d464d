/-
Where a diagnostic says that a document is wrong (`decodeWithin_error_locates`). In front of the place
there are whole characters, so the line feeds and characters that are counted lead to it, and the
caret under the line stands below it.
-/
import JsonCodec.Proofs.Document.FaultPlaces

namespace JsonCodec

open Ascii Grammar

/-- What is left of the bytes behind so many line feeds, if there are so many. -/
def afterLineFeeds : Nat → Bytes → Option Bytes
  | 0, bytes => some bytes
  | _ + 1, [] => none
  | n + 1, b :: bytes =>
    if b = lineFeed then afterLineFeeds n bytes else afterLineFeeds (n + 1) bytes

/-- What is left of the bytes behind so many characters, if they begin with so many. -/
def afterCharacters : Nat → Bytes → Option Bytes
  | 0, bytes => some bytes
  | n + 1, bytes => (Utf8.next? bytes).bind fun found => afterCharacters n found.2

namespace Utf8

/-- The bytes of characters. -/
def encodeChars (chars : List Char) : Bytes := chars.flatMap String.utf8EncodeChar

variable {chars front here : List Char} {rest bytes : Bytes}

@[simp] theorem encodeChars_nil : encodeChars [] = [] := rfl

theorem encodeChars_cons (c : Char) (chars : List Char) :
    encodeChars (c :: chars) = String.utf8EncodeChar c ++ encodeChars chars := List.flatMap_cons

theorem encodeChars_append (front here : List Char) :
    encodeChars (front ++ here) = encodeChars front ++ encodeChars here := List.flatMap_append

theorem encode_eq_encodeChars (text : String) : encode text = encodeChars text.toList := rfl

/-! ## What is counted -/

/-- A line feed is a character of its own, and a byte of no other. -/
theorem lineFeed_mem_encodeChar_iff {c : Char} :
    lineFeed ∈ String.utf8EncodeChar c ↔ c = '\n' := by
  constructor
  · intro h
    by_cases hc : c.toNat < 0x80
    · rw [encodeChar_of_ascii hc, List.mem_singleton] at h
      rw [← asciiChar_ofNat_toNat hc, ← h]
      rfl
    · exact absurd (le_of_mem_encodeChar (Nat.le_of_not_lt hc) h) (by decide)
  · rintro rfl
    decide

theorem lineFeed_mem_encodeChars_iff : lineFeed ∈ encodeChars chars ↔ '\n' ∈ chars := by
  simp only [encodeChars, List.mem_flatMap, lineFeed_mem_encodeChar_iff, exists_eq_right]

/-- Only a byte that goes on with a sequence is left out. -/
theorem counts_iff (b : UInt8) : (b &&& 0xC0 != 0x80) = true ↔ ¬Continues b := by
  have bytes : ∀ n < 256, (UInt8.ofNat n &&& 0xC0 != 0x80) = !(0x80 ≤ n && n ≤ 0xBF) := by
    decide +kernel
  have h := bytes b.toNat b.toNat_lt
  rw [UInt8.ofNat_toNat] at h
  rw [h, Continues, Bool.not_eq_true', ← Bool.not_eq_true, Bool.and_eq_true, decide_eq_true_eq,
    decide_eq_true_eq]

theorem characters_encodeChar (c : Char) : Diagnostic.characters (String.utf8EncodeChar c) = 1 := by
  obtain ⟨lead, tail, he, hs, -⟩ := exists_sequence c
  have hlead : ¬Continues lead := by
    rw [Continues]
    cases hs <;> omega
  have htail : ∀ b ∈ tail, Continues b := by
    cases hs <;> simp_all
  have hzero : Diagnostic.characters tail = 0 :=
    List.countP_eq_zero.2 fun b hb h => (counts_iff b).1 h (htail b hb)
  have hone : Diagnostic.characters (lead :: tail) = Diagnostic.characters tail + 1 :=
    List.countP_cons_of_pos ((counts_iff lead).2 hlead)
  rw [he, hone, hzero]

theorem characters_encodeChars (chars : List Char) :
    Diagnostic.characters (encodeChars chars) = chars.length := by
  induction chars with
  | nil => rfl
  | cons c chars ih =>
    have hc := characters_encodeChar c
    simp only [Diagnostic.characters] at ih hc ⊢
    rw [encodeChars_cons, List.countP_append, ih, hc, List.length_cons, Nat.add_comm]

theorem afterCharacters_encodeChars (chars : List Char) (rest : Bytes) :
    afterCharacters chars.length (encodeChars chars ++ rest) = some rest := by
  induction chars with
  | nil => rfl
  | cons c chars ih =>
    rw [encodeChars_cons, List.append_assoc, List.length_cons, afterCharacters, next?_encodeChar]
    exact ih

/-! ## What is shown -/

theorem decodeLossyOnto_of_next? {c : Char} (out : String) (h : next? bytes = some (c, rest)) :
    decodeLossyOnto out bytes = decodeLossyOnto (out.push c) rest := by
  rw [decodeLossyOnto]
  split
  · next h' =>
    rw [h] at h'
    cases h'
    rfl
  · next h' =>
    rw [h] at h'
    cases h'

/-- What is decoded goes onto the end of what there is. -/
theorem decodeLossyOnto_append (before out : String) (bytes : Bytes) :
    decodeLossyOnto (before ++ out) bytes = before ++ decodeLossyOnto out bytes := by
  have push (c : Char) (out : String) : (before ++ out).push c = before ++ out.push c := by
    rw [String.push_eq_append, String.push_eq_append, String.append_assoc]
  fun_induction decodeLossyOnto out bytes with
  | case1 out bytes c rest h ih => rw [decodeLossyOnto_of_next? _ h, push, ih]
  | case2 out h =>
    rw [decodeLossyOnto]
    rfl
  | case3 out lead rest h ih =>
    rw [decodeLossyOnto]
    split
    · next h' =>
      rw [h] at h'
      cases h'
    · simp only [push]
      exact ih

theorem decodeLossyOnto_encodeChars (out : String) (chars : List Char) (rest : Bytes) :
    decodeLossyOnto out (encodeChars chars ++ rest) =
      decodeLossyOnto (out ++ String.ofList chars) rest := by
  induction chars generalizing out with
  | nil => rw [encodeChars_nil, List.nil_append, String.ofList_nil, String.append_empty]
  | cons c chars ih =>
    rw [encodeChars_cons, List.append_assoc, decodeLossyOnto_of_next? _ (next?_encodeChar _ _), ih,
      String.push_eq_append, String.append_assoc, String.ofList_cons]

/-- A text at the front is decoded as it is. -/
theorem decodeLossy_encode_append (text : String) (rest : Bytes) :
    decodeLossy (encode text ++ rest) = text ++ decodeLossy rest := by
  rw [decodeLossy, encode_eq_encodeChars, decodeLossyOnto_encodeChars, String.ofList_toList,
    String.empty_append, ← String.append_empty (s := text), decodeLossyOnto_append,
    String.append_empty, decodeLossy]

theorem decodeLossy_encode (text : String) : decodeLossy (encode text) = text := by
  have happend := decodeLossy_encode_append text []
  have hnil : decodeLossy [] = "" := by rw [decodeLossy, decodeLossyOnto]; rfl
  rwa [List.append_nil, hnil, String.append_empty] at happend

end Utf8

/-- Behind a front that ends with a line feed, as many are passed as it has. -/
theorem afterLineFeeds_append {front : Bytes} (h : ∀ b ∈ front.getLast?, b = lineFeed)
    (rest : Bytes) :
    afterLineFeeds (front.countP (· == lineFeed)) (front ++ rest) = some rest := by
  induction front with
  | nil => simp [afterLineFeeds]
  | cons b front ih =>
    have hfront : ∀ b ∈ front.getLast?, b = lineFeed := by
      intro x hx
      refine h x ?_
      rw [List.getLast?_cons, hx]
      rfl
    by_cases hb : b = lineFeed
    · rw [List.countP_cons_of_pos (by rw [hb, beq_self_eq_true]), List.cons_append, afterLineFeeds,
        if_pos hb]
      exact ih hfront
    · -- The line feed at the end is behind this byte.
      have hne : front ≠ [] := by
        rintro rfl
        exact hb (h b rfl)
      have hmem : lineFeed ∈ front := by
        have hlast := List.getLast_mem hne
        rwa [hfront _ (List.getLast?_eq_some_getLast hne)] at hlast
      have hpos : 0 < front.countP (· == lineFeed) :=
        List.countP_pos_iff.2 ⟨lineFeed, hmem, beq_self_eq_true _⟩
      obtain ⟨n, hn⟩ := Nat.exists_eq_succ_of_ne_zero (Nat.ne_of_gt hpos)
      rw [List.countP_cons_of_neg (by simpa using hb), hn, List.cons_append, afterLineFeeds,
        if_neg hb, ← Nat.succ_eq_add_one, ← hn]
      exact ih hfront

namespace Diagnostic

/-- What `d` says of a place in `input`. The line of the place is where `onward` begins, it has `text`
in front of the place, and it is shown as `shown`. -/
structure Locates (d : Diagnostic) (input onward : Bytes) (text shown : String) : Prop where
  document_eq : d.document = input
  position_le : d.position ≤ input.length
  isText_before : Utf8.IsText (input.take d.position)
  /-- The line and the column lead to the place. -/
  line_eq : afterLineFeeds (d.line - 1) input = some onward
  column_eq : afterCharacters (d.column - 1) onward = some (input.drop d.position)
  onward_eq : onward = Utf8.encode text ++ input.drop d.position
  lineFeed_not_mem : '\n' ∉ text.toList
  /-- The line is shown without the carriage returns at its end, with the caret behind as many spaces
  as it has characters in front of the place. -/
  shown_eq : ∃ n, Utf8.decodeLossy (onward.takeWhile (· != lineFeed)) =
    shown ++ String.ofList (List.replicate n '\r')
  shown_trimmed : shown.toList.getLast? ≠ some '\r'
  snippet_eq : d.snippet = shown ++ "\n" ++ String.ofList (List.replicate text.length ' ') ++ "^"
  /-- The shown line and the text in front of the place agree as far as both go. -/
  agrees : shown.toList <+: text.toList ∨ text.toList <+: shown.toList

variable {d : Diagnostic} {input front here : Bytes} {chars : List Char}

/-! ## Lines -/

theorem exists_lastLine (chars : List Char) :
    ∃ front here, chars = front ++ here ∧ '\n' ∉ here ∧ ∀ c ∈ front.getLast?, c = '\n' := by
  induction chars using List.reverseRecOn with
  | nil => exact ⟨[], [], rfl, List.not_mem_nil, fun c hc => absurd hc (Option.not_mem_none c)⟩
  | append_singleton chars c ih =>
    by_cases hc : c = '\n'
    · exact ⟨chars ++ [c], [], (List.append_nil _).symm, List.not_mem_nil, by simp [hc]⟩
    · obtain ⟨front, here, rfl, hhere, hfront⟩ := ih
      exact ⟨front, here ++ [c], List.append_assoc .., by simp [hhere, Ne.symm hc], hfront⟩

theorem getLast?_encodeChars (h : ∀ c ∈ chars.getLast?, c = '\n') :
    ∀ b ∈ (Utf8.encodeChars chars).getLast?, b = lineFeed := by
  intro b hb
  induction chars using List.reverseRecOn with
  | nil => cases hb
  | append_singleton chars c _ =>
    obtain rfl := h c List.getLast?_concat
    rw [Utf8.encodeChars_append] at hb
    obtain rfl : lineFeed = b := Option.some.inj (List.getLast?_concat.symm.trans hb)
    rfl

theorem lineBefore_eq (hb : d.before = front ++ here) (hf : ∀ b ∈ front.getLast?, b = lineFeed)
    (hh : lineFeed ∉ here) : d.lineBefore = here := by
  have hhere : ∀ b ∈ here.reverse, (b != lineFeed) = true := by
    intro b hb
    rw [bne_iff_ne]
    rintro rfl
    exact hh (List.mem_reverse.1 hb)
  have hfront : front.reverse.takeWhile (· != lineFeed) = [] := by
    cases hr : front.reverse with
    | nil => rfl
    | cons b rest =>
      have hb : b = lineFeed := hf b (by rw [List.getLast?_eq_head?_reverse, hr]; rfl)
      rw [List.takeWhile_cons_of_neg (by rw [hb]; decide)]
  rw [lineBefore, hb, List.reverse_append, List.takeWhile_append_of_pos hhere, hfront,
    List.append_nil, List.reverse_reverse]

theorem line_sub_one (hb : d.before = front ++ here) (hh : lineFeed ∉ here) :
    d.line - 1 = front.countP (· == lineFeed) := by
  have hzero : here.countP (· == lineFeed) = 0 :=
    List.countP_eq_zero.2 fun b hb h => hh (beq_iff_eq.1 h ▸ hb)
  rw [line, hb, List.countP_append, hzero, Nat.add_zero, Nat.add_sub_cancel_left]

theorem column_sub_one (h : d.lineBefore = Utf8.encodeChars chars) :
    d.column - 1 = chars.length := by
  rw [column, h, Utf8.characters_encodeChars, Nat.add_sub_cancel_left]

theorem lineBytes_eq (h : d.lineBefore = here) (hh : lineFeed ∉ here) :
    d.lineBytes = (here ++ d.after).takeWhile (· != lineFeed) := by
  rw [lineBytes, h, List.takeWhile_append_of_pos]
  exact fun b hb => bne_iff_ne.2 fun h => hh (h ▸ hb)

/-! ## What is shown -/

theorem exists_returns (text : String) :
    ∃ n, text = trimReturns text ++ String.ofList (List.replicate n '\r') := by
  have hsplit := List.takeWhile_append_dropWhile (p := (· == '\r')) (l := text.toList.reverse)
  have hreturns : (text.toList.reverse.takeWhile (· == '\r')).reverse =
      List.replicate (text.toList.reverse.takeWhile (· == '\r')).length '\r' := by
    refine List.eq_replicate_iff.2 ⟨List.length_reverse, fun c hc => ?_⟩
    have hreturn := List.mem_takeWhile_imp (List.mem_reverse.1 hc)
    exact beq_iff_eq.1 hreturn
  refine ⟨(text.toList.reverse.takeWhile (· == '\r')).length, ?_⟩
  rw [trimReturns, ← String.ofList_append, ← hreturns, ← List.reverse_append, hsplit,
    List.reverse_reverse, String.ofList_toList]

theorem getLast?_trimReturns (text : String) :
    (trimReturns text).toList.getLast? ≠ some '\r' := by
  rw [trimReturns, String.toList_ofList, List.getLast?_reverse]
  intro h
  have hnot := List.head?_dropWhile_not (· == '\r') text.toList.reverse
  rw [h] at hnot
  cases hnot

/-! ## The place -/

/-- Where whole characters stand in front of the place, a diagnostic tells the place. -/
theorem exists_locates (hd : d.document = input) (hle : d.position ≤ input.length)
    (ht : Utf8.IsText (input.take d.position)) :
    ∃ onward text shown, d.Locates input onward text shown := by
  obtain ⟨whole, hwhole⟩ := ht
  obtain ⟨front, here, hchars, hhere, hfront⟩ := exists_lastLine whole.toList
  have hbefore : d.before = Utf8.encodeChars front ++ Utf8.encodeChars here := by
    rw [before, hd, ← hwhole, Utf8.encode_eq_encodeChars, hchars, Utf8.encodeChars_append]
  have hlast := getLast?_encodeChars hfront
  have hnone : lineFeed ∉ Utf8.encodeChars here := mt Utf8.lineFeed_mem_encodeChars_iff.1 hhere
  have hlineBefore := lineBefore_eq hbefore hlast hnone
  have hafter : d.after = input.drop d.position := by rw [after, hd]
  have hinput : input = Utf8.encodeChars front ++ (Utf8.encodeChars here ++ d.after) := by
    rw [← List.append_assoc, ← hbefore, before, hd, hafter, List.take_append_drop]
  obtain ⟨n, hreturns⟩ := exists_returns (Utf8.decodeLossy d.lineBytes)
  have hdecoded : Utf8.decodeLossy d.lineBytes =
      String.ofList here ++ Utf8.decodeLossy (d.after.takeWhile (· != lineFeed)) := by
    rw [lineBytes, hlineBefore, ← Utf8.decodeLossy_encode_append, Utf8.encode_eq_encodeChars,
      String.toList_ofList]
  refine ⟨Utf8.encodeChars here ++ d.after, String.ofList here,
    trimReturns (Utf8.decodeLossy d.lineBytes), ?_⟩
  exact {
    document_eq := hd
    position_le := hle
    isText_before := ⟨whole, hwhole⟩
    line_eq := by
      rw [line_sub_one hbefore hnone]
      exact (congrArg _ hinput).trans (afterLineFeeds_append hlast _)
    column_eq := by
      rw [column_sub_one hlineBefore, ← hafter]
      exact Utf8.afterCharacters_encodeChars here d.after
    onward_eq := by rw [Utf8.encode_eq_encodeChars, String.toList_ofList, hafter]
    lineFeed_not_mem := by rwa [String.toList_ofList]
    shown_eq := ⟨n, by rwa [← lineBytes_eq hlineBefore hnone]⟩
    shown_trimmed := getLast?_trimReturns _
    snippet_eq := by rw [snippet, column_sub_one hlineBefore, String.length_ofList]
    agrees := by
      -- Both are fronts of the line as it is decoded.
      have hshown := congrArg String.toList hreturns
      have htext := congrArg String.toList hdecoded
      rw [String.toList_append] at hshown htext
      exact List.prefix_or_prefix_of_prefix ⟨_, hshown.symm⟩ ⟨_, htext.symm⟩ }

end Diagnostic

namespace Document

/-- **Where a document is wrong.** In front of the place that is told there are whole characters. So
the line and the column lead to it, and the caret stands below it. -/
theorem decodeWithin_error_locates {bounds : Bounds} {input : Bytes} {d : Diagnostic}
    (h : decodeWithin bounds input = .error d) :
    ∃ onward text shown, d.Locates input onward text shown := by
  cases hr : read bounds input with
  | ok v =>
    rw [(decodeWithin_eq_ok_iff _ _).2 hr] at h
    cases h
  | error f =>
    rw [decodeWithin_eq_error_of_read hr] at h
    cases h
    obtain ⟨hle, htext⟩ := isText_take_of_read_eq_error hr
    exact Diagnostic.exists_locates rfl hle htext

/-- The second line has a character of two bytes in front of the place, and ends with a carriage
return. -/
theorem decodeWithin_error_locates_secondLine :
    let input := Utf8.encode "\x7b\n\"é\" x\r\n1\x7d"
    ∃ d, decodeWithin ⟨1, 64⟩ input = .error d ∧ d.line = 2 ∧ d.column = 5 ∧
      d.snippet = "\"é\" x\n    ^" ∧ ∃ onward text shown, d.Locates input onward text shown := by
  intro input
  let m : Cursor := ⟨7, Utf8.encode "x\r\n1\x7d"⟩
  have hblank {b : UInt8} (hb : isBlank b = true) : Blanks [b] := List.forall_mem_singleton.2 hb
  have hbegun : Begun m.peek .document 1
      ([] ++ braceOpen :: ([lineFeed] ++ Quoted.literal false "é" ++ [space])) 0 .colon :=
    .whole (.object (List.forall_mem_nil _)
      (.colon (hblank rfl) (text_literal false "é") (hblank rfl)))
  have hbreaks : Breaks .document 1 (Cursor.ofBytes input) ⟨.expectedColon, 7⟩ :=
    ⟨_, _, _, m, hbegun, ⟨rfl, rfl⟩, Cursor.stops_of_peek rfl rfl, .colon (by decide)⟩
  have h : decodeWithin ⟨1, 64⟩ input = .error (Fault.inDocument ⟨.expectedColon, 7⟩ input) :=
    decodeWithin_eq_error_of_breaks (by decide) (by decide) hbreaks
  exact ⟨_, h, by decide, by decide, by decide +kernel, decodeWithin_error_locates h⟩

end Document

end JsonCodec
