/-
An indented document is the compact one with blanks between its tokens (`encodeWith_indent2`).

Lexemes are the same in both, and the layout puts blanks in front of parts, behind colons and in front
of closing brackets. Blanks within texts and keys are none of these: a reader who skips blanks has to
know where texts end, and does (`Place.Strips`).
-/
import JsonCodec.Proofs.Blanks
import JsonCodec.Proofs.Encoder.Alike

namespace JsonCodec

open Ascii Place

theorem IsLexeme.strips {asciiOnly : Bool} {b : Bytes} (h : IsLexeme asciiOnly b) : Strips b b := by
  cases h with
  | word _ h => exact .word fun x hx => (Bool.and_eq_true_iff.1 (List.all_eq_true.1 h x hx)).1
  | plain h => exact .text (text_of_plainBytes h)
  | literal text => exact .text (text_literal _ text)

namespace Options

variable {o o' : Options} (hi : o.indent2 = false) (hi' : o'.indent2 = true)
include hi hi'

theorem strips_breakAt (depth : Nat) : Strips (o'.breakAt depth) (o.breakAt depth) := by
  rw [breakAt, breakAt, if_pos hi', hi]
  refine .blanks (List.forall_mem_cons.2 ⟨.inr rfl, fun x hx => ?_⟩)
  exact .inl (List.eq_of_mem_replicate hx)

theorem strips_leadAt (depth : Nat) (first : Bool) :
    Strips (o'.leadAt depth first) (o.leadAt depth first) := by
  refine .append ?_ (strips_breakAt hi hi' depth)
  cases first with
  | true => exact .nil
  | false => exact .word (List.all_eq_true.1 rfl)

theorem strips_joined {depth : Nat} {bs cs : List Bytes} (first : Bool)
    (h : List.Forall₂ Strips bs cs) :
    Strips (joined (o'.leadAt depth) first bs) (joined (o.leadAt depth) first cs) := by
  induction h generalizing first with
  | nil => exact .nil
  | cons hb _ ih => exact ((strips_leadAt hi hi' depth first).append hb).append (ih false)

theorem strips_bracketed {depth : Nat} {left right : UInt8} {bs cs : List Bytes}
    (hl : isOpening left = true) (hr : isClosing right = true) (h : List.Forall₂ Strips bs cs) :
    Strips (o'.bracketed depth left right bs) (o.bracketed depth left right cs) := by
  cases h with
  | nil => exact .brackets hl hr .nil
  | cons hb hbs =>
    exact .brackets hl hr ((strips_joined hi hi' true (.cons hb hbs)).append
      (strips_breakAt hi hi' depth))

theorem strips_memberBytes (ha : o'.asciiOnly = o.asciiOnly) {k : KeyText} {b c : Bytes}
    (hk : k.IsSound) (h : Strips b c) :
    Strips (o'.memberBytes (k, b)) (o.memberBytes (k, c)) := by
  have hquoted : k.quoted o' = k.quoted o := by cases k <;> simp only [KeyText.quoted, ha]
  have hcolon : Strips o'.afterKey o.afterKey := by
    rw [afterKey, afterKey, if_pos hi', hi]
    have hword : Strips [colon] [colon] := .word (List.all_eq_true.1 rfl)
    exact hword.append (.blanks (List.forall_mem_singleton.2 (.inl rfl)))
  rw [memberBytes, memberBytes, hquoted]
  exact (Strips.append (.text (k.text_quoted hk o)) hcolon).append h

end Options

namespace Lookup

open TextM

/-- **Without its blanks, what is indented is what is not.** -/
theorem translates_strips {l : Lookup} {o' : Options} (hi : l.options.indent2 = false)
    (hi' : o'.indent2 = true) (h : l.options.AgreeBut [.indent2] o') :
    l.Translates o' fun c b => Strips b c where
  lookUp := h.lookUpAlike (by decide) (by decide)
  sortKeys := h .sortKeys (by decide)
  key := h.ofValue (by decide) l.graph
  leaf hf hfrag := by
    rw [h.leafText (by decide) (by decide) fun _ _ => h .asciiOnly (by decide)]
    exact Alike.lift fun b hb => (isLexeme_leafText hf hfrag hb).strips
  member hk hb := Options.strips_memberBytes hi hi' (h .asciiOnly (by decide)) hk hb
  bracketed hl hr hbs := Options.strips_bracketed hi hi' hl hr (List.Forall₂.flip hbs)

end Lookup

namespace Codec

variable {mask : UInt32} {o : Options} {g : Graph} {hook : Option (Value → Option Value)} {v : Value}

/-- **With lines and without, a value without fragments is written or refused for the same reason; and
the document without lines is the other without the spaces and line feeds outside its texts.** -/
theorem encodeWith_indent2 (hm : Options.ofMask? mask = .ok o) (hi : o.indent2 = false)
    (hn : o.appendNewline = false) (hf : (Lookup.mk o g hook).NoFragment v) :
    match (encodeWith (mask ||| Flag.indent2.bit) g (hook.map Hook.ofFunction) () v).1,
      (encodeWith mask g (hook.map Hook.ofFunction) () v).1 with
    | .ok indented, .ok compact => ({} : Place).stripped indented = compact
    | .error x, .error y => x = y
    | _, _ => False := by
  obtain ⟨o', hm', hi', hagree⟩ := Options.exists_agreeBut hm .indent2
  have hn' : o'.appendNewline = false := (hagree .appendNewline (by decide)).trans hn
  have hdocument {o : Options} (hn : o.appendNewline = false) (b : Bytes) :
      Encoder.document o b = b := by rw [Encoder.document, hn]; rfl
  rcases encodeWith_alike hm hm' (Lookup.translates_strips hi hi' hagree) hf with
    ⟨c, b, hc, hb, hstrips⟩ | ⟨x, hx, hx'⟩
  · rw [(encodeWith_eq_ok_iff hm).2 ⟨c, hc, rfl⟩, (encodeWith_eq_ok_iff hm').2 ⟨b, hb, rfl⟩,
      hdocument hn, hdocument hn']
    exact hstrips.stripped_eq 0
  · rw [hx, hx']

/-- Blanks in a key and in a text, behind a quote and in front of one. -/
theorem encodeWith_indent2_of_blanks :
    let v := Value.object (Members.ofText [("a\" ", .array [.null, .str " \n"])])
    let indented := Utf8.encode "\x7b\n  \"a\\\" \": [\n    null,\n    \" \\n\"\n  ]\n\x7d"
    let compact := Utf8.encode "\x7b\"a\\\" \":[null,\" \\n\"]\x7d"
    (encodeWith (0 ||| Flag.indent2.bit) .empty none () v).1 = .ok indented ∧
      (encodeWith 0 .empty none () v).1 = .ok compact ∧
      ({} : Place).stripped indented = compact := by
  intro v indented compact
  have hv : v.WellFormed := by
    refine .object (by decide) (List.forall_mem_singleton.2 (.array ?_))
    exact List.forall_mem_cons.2 ⟨.null, List.forall_mem_singleton.2 (.str _)⟩
  have hindented : (encodeWith (0 ||| Flag.indent2.bit) .empty none () v).1 = .ok indented := by
    rw [encodeWith_eq (o := { indent2 := true }) rfl]
    rfl
  have hcompact : (encodeWith 0 .empty none () v).1 = .ok compact := by
    rw [encodeWith_eq (o := {}) rfl]
    rfl
  have hstripped := @encodeWith_indent2 0 {} .empty none v rfl rfl rfl (hv.noFragment _)
  have hnone : (none : Option (Value → Option Value)).map (Hook.ofFunction (σ := Unit)) = none := rfl
  rw [hnone, hindented, hcompact] at hstripped
  exact ⟨hindented, hcompact, hstripped⟩

end Codec

end JsonCodec
