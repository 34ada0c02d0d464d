/-
Documents in ASCII (`encodeWith_asciiOnly`). Where only ASCII is wanted, texts are spelled otherwise and
everything else stays, byte for byte and so in the same order (`Respells`). The two spellings of a text
denote the same, so that both documents say the same.
-/
import JsonCodec.Proofs.Encoder.Alike

namespace JsonCodec

open Ascii Grammar Quoted

/-! ## Bytes of ASCII -/

def IsAscii (bytes : Bytes) : Prop := ∀ x ∈ bytes, x < 0x80

namespace IsAscii

theorem nil : IsAscii [] := List.forall_mem_nil _

theorem cons {x : UInt8} {bytes : Bytes} (hx : x < 0x80) (h : IsAscii bytes) :
    IsAscii (x :: bytes) := List.forall_mem_cons.2 ⟨hx, h⟩

theorem append {a b : Bytes} (ha : IsAscii a) (hb : IsAscii b) : IsAscii (a ++ b) :=
  List.forall_mem_append.2 ⟨ha, hb⟩

theorem flatMap {α : Type} {f : α → Bytes} {xs : List α} (h : ∀ x ∈ xs, IsAscii (f x)) :
    IsAscii (xs.flatMap f) := by
  intro b hb
  obtain ⟨x, hx, hb⟩ := List.mem_flatMap.1 hb
  exact h x hx b hb

/-- Bytes that need no escape are ASCII. -/
theorem of_plain {bytes : Bytes} (h : PlainBytes bytes) : IsAscii bytes := by
  intro x hx
  have hplain := h x hx
  simp only [isPlainByte, Bool.and_eq_true, decide_eq_true_eq] at hplain
  exact hplain.1.1.2

theorem quoted {bytes : Bytes} (h : IsAscii bytes) : IsAscii (quoted bytes) :=
  .cons (by decide) (h.append (.cons (by decide) .nil))

theorem unit (n : Nat) : IsAscii (Quoted.unit n) :=
  .cons (by decide) (.cons (by decide) (.of_plain (.hex 4 n)))

theorem escapeByte {b : UInt8} (hb : b < 0x80) : IsAscii (escapeByte b) := by
  have pair {x : UInt8} (hx : x < 0x80) : IsAscii [backslash, x] :=
    .cons (by decide) (.cons hx .nil)
  rw [Quoted.escapeByte, escape?]
  split_ifs
  iterate 7 exact pair (by decide)
  · exact .unit _
  · exact .cons hb .nil

theorem escapeChar (c : Char) : IsAscii (escapeChar c) := by
  cases hc : isAscii c with
  | true =>
    have hlt : c.toNat < 0x80 := of_decide_eq_true hc
    rw [escapeChar_of_ascii hc, Utf8.encodeChar_of_ascii hlt, List.flatMap_singleton]
    refine .escapeByte (UInt8.lt_iff_toNat_lt.2 ?_)
    rwa [toNat_ofNat_of_ascii hlt]
  | false =>
    rw [Quoted.escapeChar, escapeChar?, hc]
    exact .flatMap fun n _ => .unit n

/-- **A text that is escaped down to ASCII is ASCII.** -/
theorem literal (text : String) : IsAscii (literal true text) :=
  .quoted (.flatMap fun c _ => .escapeChar c)

end IsAscii

theorem KeyText.isAscii_quoted {k : KeyText} (hk : k.IsSound) {o : Options}
    (ho : o.asciiOnly = true) : IsAscii (k.quoted o) := by
  cases k with
  | own text | derived text =>
    rw [quoted, ho]
    exact .literal text
  | plain bytes => exact .quoted (.of_plain hk)

theorem IsLexeme.isAscii {b : Bytes} (h : IsLexeme true b) : IsAscii b := by
  cases h with
  | word _ h =>
    intro x hx
    have hname := List.all_eq_true.1 h x hx
    rw [isNameByte, Bool.and_eq_true, decide_eq_true_eq] at hname
    exact hname.2
  | plain h => exact .quoted (.of_plain h)
  | literal text => exact .literal text

/-! ## The same document in ASCII -/

/-- `ascii` has ASCII bytes alone. It has the bytes of `bytes` outside texts, and in the same places as
`bytes` texts that denote the same. -/
inductive Respells : (ascii bytes : Bytes) → Prop
  | nil : Respells [] []
  | byte {x : UInt8} {a b : Bytes} (hx : x ≠ quote) (ha : x < 0x80) (h : Respells a b) :
    Respells (x :: a) (x :: b)
  | text {s s' a b : Bytes} {t : String} (hs : Text s t) (hs' : Text s' t) (ha : IsAscii s)
    (h : Respells a b) : Respells (s ++ a) (s' ++ b)

namespace Respells

variable {a b c d : Bytes}

theorem isAscii (h : Respells a b) : IsAscii a := by
  induction h with
  | nil => exact .nil
  | byte _ ha _ ih => exact .cons ha ih
  | text _ _ ha _ ih => exact ha.append ih

theorem append (h : Respells a b) (h' : Respells c d) : Respells (a ++ c) (b ++ d) := by
  induction h with
  | nil => exact h'
  | byte hx ha _ ih => exact .byte hx ha ih
  | text hs hs' ha _ ih =>
    rw [List.append_assoc, List.append_assoc]
    exact .text hs hs' ha ih

theorem of_text {t : String} (hs : Text a t) (hs' : Text b t) (ha : IsAscii a) : Respells a b := by
  have h := Respells.text hs hs' ha .nil
  rwa [List.append_nil, List.append_nil] at h

/-- What stands outside texts stays. -/
theorem same (h : ∀ x ∈ a, x ≠ quote ∧ x < 0x80) : Respells a a := by
  induction a with
  | nil => exact .nil
  | cons x a ih =>
    obtain ⟨⟨hx, hlt⟩, ha⟩ := List.forall_mem_cons.1 h
    exact .byte hx hlt (ih ha)

theorem lexeme (h : IsLexeme true a) : Respells a a := by
  have hascii := h.isAscii
  cases h with
  | word _ h =>
    refine .same fun x hx => ⟨?_, hascii x hx⟩
    exact (Place.isWordByte_iff.1 (Bool.and_eq_true_iff.1 (List.all_eq_true.1 h x hx)).1).2.1
  | plain h => exact .of_text (text_of_plainBytes h) (text_of_plainBytes h) hascii
  | literal text => exact .of_text (text_literal _ text) (text_literal _ text) hascii

end Respells

namespace Options

variable {o o' : Options}

theorem respells_breakAt (o : Options) (depth : Nat) : Respells (o.breakAt depth) (o.breakAt depth) := by
  refine .same ?_
  rw [breakAt]
  split
  · refine List.forall_mem_cons.2 ⟨by decide, fun x hx => ?_⟩
    rw [List.eq_of_mem_replicate hx]
    decide
  · exact List.forall_mem_nil _

theorem respells_joined (o : Options) {d : Nat} {bs cs : List Bytes} (first : Bool)
    (h : List.Forall₂ Respells bs cs) :
    Respells (joined (o.leadAt d) first bs) (joined (o.leadAt d) first cs) := by
  induction h generalizing first with
  | nil => exact .nil
  | cons hb _ ih =>
    have hlead : Respells (o.leadAt d first) (o.leadAt d first) := by
      cases first with
      | true => exact o.respells_breakAt d
      | false => exact .byte (by decide) (by decide) (o.respells_breakAt d)
    exact (hlead.append hb).append (ih false)

theorem respells_bracketed (o : Options) {depth : Nat} {left right : UInt8} {bs cs : List Bytes}
    (hl : isOpening left = true) (hr : isClosing right = true) (h : List.Forall₂ Respells bs cs) :
    Respells (o.bracketed depth left right bs) (o.bracketed depth left right cs) := by
  have hleft : left ≠ quote ∧ left < 0x80 := by
    rw [isOpening, Bool.or_eq_true, beq_iff_eq, beq_iff_eq] at hl
    rcases hl with rfl | rfl <;> decide
  have hright : Respells [right] [right] := by
    rw [isClosing, Bool.or_eq_true, beq_iff_eq, beq_iff_eq] at hr
    rcases hr with rfl | rfl <;> exact .byte (by decide) (by decide) .nil
  cases h with
  | nil => exact .byte hleft.1 hleft.2 hright
  | cons hb hbs =>
    have hjoined := o.respells_joined (d := depth + 1) true (.cons hb hbs)
    exact .byte hleft.1 hleft.2 ((hjoined.append (o.respells_breakAt depth)).append hright)

/-- A key is spelled in ASCII. -/
theorem respells_memberBytes (h : o.AgreeBut [.asciiOnly] o') (ho : o'.asciiOnly = true)
    {k : KeyText} {b c : Bytes} (hk : k.IsSound) (hbc : Respells b c) :
    Respells (o'.memberBytes (k, b)) (o.memberBytes (k, c)) := by
  have hindent : o'.indent2 = o.indent2 := h .indent2 (by decide)
  have hcolon : Respells o'.afterKey o.afterKey := by
    rw [afterKey, afterKey, hindent]
    have front {b : Bytes} (h : Respells b b) : Respells (colon :: b) (colon :: b) :=
      .byte (by decide) (by decide) h
    split
    · exact front (.byte (by decide) (by decide) .nil)
    · exact front .nil
  have hkey : Respells (k.quoted o') (k.quoted o) :=
    .of_text (k.text_quoted hk o') (k.text_quoted hk o) (KeyText.isAscii_quoted hk ho)
  exact (hkey.append hcolon).append hbc

end Options

namespace Lookup

open TextM

/-- **What is written in ASCII is what is written without, spelled in ASCII.** -/
theorem translates_respells {l : Lookup} {o' : Options} (h : l.options.AgreeBut [.asciiOnly] o')
    (ho : o'.asciiOnly = true) : l.Translates o' fun c b => Respells b c where
  lookUp := h.lookUpAlike (by decide) (by decide)
  sortKeys := h .sortKeys (by decide)
  key := h.ofValue (by decide) l.graph
  leaf {v} hf hfrag := by
    by_cases hv : ∃ text, v = .str text
    · obtain ⟨text, rfl⟩ := hv
      have hascii : IsAscii (Quoted.literal o'.asciiOnly text) := by
        rw [ho]
        exact .literal text
      exact Alike.pure (.of_text (text_literal _ text) (text_literal _ text) hascii)
    · have hform : (l.under o').encoder.form v = .leaf :=
        (form_under (h.lookUpAlike (by decide) (by decide)) v).trans hf
      rw [← h.leafText (by decide) (by decide) fun text hs => absurd ⟨text, hs⟩ hv]
      refine Alike.lift fun b hb => .lexeme ?_
      rw [← ho]
      exact isLexeme_leafText (e := (l.under o').encoder) hform hfrag hb
  member hk hb := Options.respells_memberBytes h ho hk hb
  bracketed hl hr hbs := by
    rw [Options.bracketed_congr (h .indent2 (by decide))]
    exact Options.respells_bracketed _ hl hr (List.Forall₂.flip hbs)

end Lookup

/-! ## What it says -/

namespace Value

variable {g : Graph} {o o' : Options} {flags : List Flag}

mutual

/-- The meaning of a tree is a matter of the keys, of their order and of the texts of dates. -/
theorem meaning_congr (h : o.AgreeBut flags o') (hf : ∀ flag ∈ .sortKeys :: Flag.ofTexts, flag ∉ flags) :
    ∀ v : Value, v.meaning g o' = v.meaning g o
  | .array vs => by rw [meaning, meaning, itemMeanings_congr h hf vs]
  | .object ms => by
    have harrange (ms : List (KeyText × Value)) : o'.arrange ms = o.arrange ms :=
      Options.arrange_congr (h .sortKeys (hf _ (by decide))) ms
    simp only [meaning, memberMeanings_congr h hf ms, harrange]
  | .dateTime t => by rw [meaning, meaning, h.dateTime fun flag hm => hf flag (.tail _ hm)]
  | .time t => by rw [meaning, meaning, h.time fun flag hm => hf flag (.tail _ hm)]
  | .null | .bool _ | .int _ | .bigInt _ | .float _ | .str _ | .date _ | .uuid _ | .fragment _
  | .shared _ | .foreign _ _ => rfl

theorem itemMeanings_congr (h : o.AgreeBut flags o')
    (hf : ∀ flag ∈ .sortKeys :: Flag.ofTexts, flag ∉ flags) :
    ∀ vs : List Value, itemMeanings g o' vs = itemMeanings g o vs
  | [] => rfl
  | v :: vs => by
    rw [itemMeanings, itemMeanings, meaning_congr h hf v, itemMeanings_congr h hf vs]

theorem memberMeanings_congr (h : o.AgreeBut flags o')
    (hf : ∀ flag ∈ .sortKeys :: Flag.ofTexts, flag ∉ flags) :
    ∀ ms : Members, memberMeanings g o' ms = memberMeanings g o ms
  | [] => rfl
  | (key, v) :: ms => by
    rw [memberMeanings, memberMeanings, h.ofValue fun flag hm => hf flag (.tail _ hm),
      meaning_congr h hf v, memberMeanings_congr h hf ms]

end

end Value

namespace Lookup

variable {l : Lookup} {o' : Options} {v : Value} {b c : Bytes} {budget : Nat}

/-- Both documents say what the tree means. -/
theorem exists_denotes_both (h : l.options.AgreeBut [.asciiOnly] o') (hf : l.NoFragment v)
    (hn : l.options.allowNonFinite = false) (hc : Gives (l.encoder.text budget {} v) c)
    (hb : Gives ((l.under o').encoder.text budget {} v) b) :
    ∃ w, Denotes NumberLiteral.exponentSize Limits.maxDepth c w ∧
      Denotes NumberLiteral.exponentSize Limits.maxDepth b w := by
  have hlook : l.options.LookUpAlike o' := h.lookUpAlike (by decide) (by decide)
  have hback : (l.under o').options.LookUpAlike l.options := ⟨hlook.datetime.symm, hlook.dataclass.symm⟩
  have hf' : (l.under o').NoFragment v := fun raw hr => hf raw (reaches_under (l := l.under o') hback hr)
  have hn' : (l.under o').options.allowNonFinite = false := (h .allowNonFinite (by decide)).trans hn
  obtain ⟨tree, w, hunfold, hmean, hdenote⟩ := says_of_gives _ _ _ _ (hf.readable hn) hc
  obtain ⟨tree', w', hunfold', hmean', hdenote'⟩ := says_of_gives _ _ _ _ (hf'.readable hn') hb
  obtain rfl : tree' = tree := (unfolds_under hlook hunfold).unique hunfold'
  have hmean' : tree'.meaning l.graph o' = .ok w' := hmean'
  rw [Value.meaning_congr h (by decide), hmean] at hmean'
  cases hmean'
  exact ⟨w, hdenote _ (Nat.le_refl _), hdenote' _ (Nat.le_refl _)⟩

end Lookup

namespace Codec

variable {mask : UInt32} {o : Options} {g : Graph} {hook : Option (Value → Option Value)} {v : Value}

/-- **In ASCII and without, a value without fragments is written or refused for the same reason. The
one document is the other with its texts spelled in ASCII, and everything in the order of the other;
and both are read as the same value, where they are not too large.** -/
theorem encodeWith_asciiOnly (hm : Options.ofMask? mask = .ok o) (hn : o.allowNonFinite = false)
    (hf : (Lookup.mk o g hook).NoFragment v) :
    match (encodeWith (mask ||| Flag.asciiOnly.bit) g (hook.map Hook.ofFunction) () v).1,
      (encodeWith mask g (hook.map Hook.ofFunction) () v).1 with
    | .ok ascii, .ok bytes => (∀ x ∈ ascii, x < 0x80) ∧ Respells ascii bytes ∧
        ∃ w, (ascii.length ≤ Limits.maxInputSize → decode ascii = .ok w) ∧
          (bytes.length ≤ Limits.maxInputSize → decode bytes = .ok w)
    | .error x, .error y => x = y
    | _, _ => False := by
  obtain ⟨o', hm', ho', hagree⟩ := Options.exists_agreeBut hm .asciiOnly
  rcases encodeWith_alike hm hm' (Lookup.translates_respells hagree ho') hf with
    ⟨c, b, hc, hb, hrespells⟩ | ⟨x, hx, hx'⟩
  · have hdocument : Respells (Encoder.document o' b) (Encoder.document o c) := by
      have hnewline : o'.appendNewline = o.appendNewline := hagree .appendNewline (by decide)
      rw [Encoder.document, Encoder.document, hnewline]
      split
      · exact hrespells.append (.byte (by decide) (by decide) .nil)
      · exact hrespells
    obtain ⟨w, hdc, hdb⟩ := Lookup.exists_denotes_both hagree hf hn hc hb
    rw [(encodeWith_eq_ok_iff hm).2 ⟨c, hc, rfl⟩, (encodeWith_eq_ok_iff hm').2 ⟨b, hb, rfl⟩]
    exact ⟨hdocument.isAscii, hdocument, w, decode_document hdb, decode_document hdc⟩
  · rw [hx, hx']

/-- A key that is spelled otherwise, and a key and a text that are ASCII already. -/
theorem encodeWith_asciiOnly_of_key :
    let v := Value.object (Members.ofText [("é", .null), ("\\", .str "\x7f")])
    let ascii := Utf8.encode "\x7b\"\\u00e9\":null,\"\\\\\":\"\x7f\"\x7d"
    let bytes := Utf8.encode "\x7b\"é\":null,\"\\\\\":\"\x7f\"\x7d"
    (encodeWith (0 ||| Flag.asciiOnly.bit) .empty none () v).1 = .ok ascii ∧
      (encodeWith 0 .empty none () v).1 = .ok bytes ∧ Respells ascii bytes ∧
      ∃ w, decode ascii = .ok w ∧ decode bytes = .ok w := by
  intro v ascii bytes
  have hv : v.WellFormed :=
    .object (by decide) (List.forall_mem_cons.2 ⟨.null, List.forall_mem_singleton.2 (.str _)⟩)
  have hascii : (encodeWith (0 ||| Flag.asciiOnly.bit) .empty none () v).1 = .ok ascii := by
    rw [encodeWith_eq (o := { asciiOnly := true }) rfl]
    rfl
  have hbytes : (encodeWith 0 .empty none () v).1 = .ok bytes := by
    rw [encodeWith_eq (o := {}) rfl]
    rfl
  have hboth := @encodeWith_asciiOnly 0 {} .empty none v rfl rfl (hv.noFragment _)
  have hnone : (none : Option (Value → Option Value)).map (Hook.ofFunction (σ := Unit)) = none := rfl
  rw [hnone, hascii, hbytes] at hboth
  obtain ⟨-, hrespells, w, hreada, hreadb⟩ := hboth
  exact ⟨hascii, hbytes, hrespells, w, hreada (by decide), hreadb (by decide)⟩

end Codec

end JsonCodec
