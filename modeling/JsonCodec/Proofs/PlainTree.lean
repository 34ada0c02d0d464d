/-
The plain tree of a value is what a reader makes of its document (`PlainTree.ofValue_document`).

The tree is made without the document, except for the leaves that a tree has no kind for: these are
written and taken out of their quotes. So what comes of the conversion is set beside what the
document says (`Value.meaning`), container by container (`PlainTree.agree_meaning`).
-/
import JsonCodec.PlainTree
import JsonCodec.Proofs.Document.Located
import JsonCodec.Proofs.Encoder.Buffer
import JsonCodec.Proofs.Encoder.Cycles
import JsonCodec.Proofs.Encoder.Keys

namespace JsonCodec

open Ascii Encoder Value

/-- A value that a plain tree is made for: native but for large integers and what is not finite, with
each key once in an object, or a leaf that is written as a text. -/
inductive Value.IsPlain : Value → Prop
  | null : IsPlain .null
  | bool (b : Bool) : IsPlain (.bool b)
  | int (n : Int64) : IsPlain (.int n)
  | float {x : Binary64} (h : x.isFinite = true) : IsPlain (.float x)
  | str (text : String) : IsPlain (.str text)
  | dateTime (t : DateTime) : IsPlain (.dateTime t)
  | date (d : Date) : IsPlain (.date d)
  | time (t : Time) : IsPlain (.time t)
  | uuid (id : Uuid) : IsPlain (.uuid id)
  | array {vs : List Value} (h : ∀ v ∈ vs, IsPlain v) : IsPlain (.array vs)
  | object {ms : List (String × Value)} (hk : (ms.map (·.1)).Nodup) (h : ∀ m ∈ ms, IsPlain m.2) :
    IsPlain (.object (Members.ofText ms))

namespace PlainTree

mutual

/-- The value that a tree is. -/
def toValue : PlainTree → Value
  | .null => .null
  | .bool b => .bool b
  | .int n => .int n
  | .float x => .float x
  | .str text => .str text
  | .array items => .array (itemValues items)
  | .object members => .object (memberValues members)

/-- The values that trees are. -/
def itemValues : List PlainTree → List Value
  | [] => []
  | tree :: rest => toValue tree :: itemValues rest

/-- The members that trees under names are. -/
def memberValues : List (String × PlainTree) → Members
  | [] => []
  | (name, tree) :: rest => (.str name, toValue tree) :: memberValues rest

end

theorem memberValues_eq (members : List (String × PlainTree)) :
    memberValues members = Members.ofText (members.map fun m => (m.1, m.2.toValue)) := by
  induction members with
  | nil => rfl
  | cons m members ih =>
    obtain ⟨name, tree⟩ := m
    rw [memberValues, ih]
    rfl

/-! ## Leaves that are written -/

theorem dropWhile_quote {chars : List Char} (h : ∀ c ∈ chars, c ≠ '"') :
    chars.dropWhile (· == '"') = chars := by
  cases chars with
  | nil => rfl
  | cons c chars => exact List.dropWhile_cons_of_neg (by simpa using h c List.mem_cons_self)

/-- The quotes are taken from the ends of a text that has no others. -/
theorem trimQuotes_ofList {chars : List Char} (h : ∀ c ∈ chars, c ≠ '"') :
    trimQuotes (String.ofList ('"' :: (chars ++ ['"']))) = String.ofList chars := by
  have hfront : ('"' :: (chars ++ ['"'])).dropWhile (· == '"') =
      if chars = [] then [] else chars ++ ['"'] := by
    cases chars with
    | nil => rfl
    | cons c chars =>
      rw [List.dropWhile_cons_of_pos (by rfl), if_neg (List.cons_ne_nil _ _)]
      exact List.dropWhile_cons_of_neg (by simpa using h c List.mem_cons_self)
  have hback : ∀ c ∈ chars.reverse, c ≠ '"' := fun c hc => h c (List.mem_reverse.1 hc)
  simp only [trimQuotes, String.toList_ofList, hfront]
  by_cases hnil : chars = []
  · rw [if_pos hnil, hnil]
    rfl
  · rw [if_neg hnil, List.reverse_append, List.reverse_singleton, List.singleton_append,
      List.dropWhile_cons_of_pos (by rfl), dropWhile_quote hback, List.reverse_reverse]

/-- What needs no escape is got back out of its quotes. -/
theorem trimQuotes_quoted {b : Bytes} (h : PlainBytes b) :
    trimQuotes (Utf8.decodeLossy (quoted b)) = asciiText b := by
  have hencode : Utf8.encode (String.ofList ('"' :: (b.map asciiChar ++ ['"']))) = quoted b := by
    have hb := Utf8.encode_asciiText h
    rw [asciiText, Utf8.encode_eq_encodeChars, String.toList_ofList] at hb
    rw [Utf8.encode_eq_encodeChars, String.toList_ofList, Utf8.encodeChars_cons,
      Utf8.encodeChars_append, hb]
    rfl
  have hquote : ∀ c ∈ b.map asciiChar, c ≠ '"' := by
    intro c hc
    obtain ⟨x, hx, rfl⟩ := List.mem_map.1 hc
    have hplain := h x hx
    intro heq
    have hbyte := congrArg String.utf8EncodeChar heq
    simp only [isPlainByte, Bool.and_eq_true, decide_eq_true_eq] at hplain
    rw [encodeChar_asciiChar (UInt8.lt_iff_toNat_lt.1 hplain.1.1.2)] at hbyte
    cases hbyte
    exact absurd hplain.1.2 (by decide)
  rw [← hencode, Utf8.decodeLossy_encode, trimQuotes_ofList hquote, asciiText]

/-- A leaf that is written between quotes becomes the text inside them. -/
theorem written_eq {g : Graph} {v : Value} {x : Except EncodeError Bytes}
    (hv : v.isScalar = true) (hx : v.leafText {} = x.map quoted)
    (hplain : ∀ b, x = .ok b → PlainBytes b) :
    written g v = x.map fun b => .str (asciiText b) := by
  have htext : (Encoder.mk {} g none : Encoder Unit).text Encoder.budget {} v =
      TextM.lift (v.leafText {}) := Encoder.text_of_isScalar rfl hv _ _
  rw [written, encode_eq_text, htext, hx]
  cases x with
  | error y => rfl
  | ok b =>
    have htrim := trimQuotes_quoted (hplain b rfl)
    show Except.ok (PlainTree.str (trimQuotes (Utf8.decodeLossy (quoted b)))) = _
    rw [htrim]
    rfl

/-! ## What the document says -/

/-- Both are refused since a datetime is naive, or have results that go together. -/
inductive Agree {α β : Type} (R : α → β → Prop) :
    Except EncodeError α → Except EncodeError β → Prop
  | naive : Agree R (.error .naiveDateTime) (.error .naiveDateTime)
  | ok {a : α} {b : β} (h : R a b) : Agree R (.ok a) (.ok b)

namespace Agree

variable {α β γ δ : Type} {R : α → β → Prop} {R' : γ → δ → Prop} {r : Except EncodeError α}
  {s : Except EncodeError β}

theorem bind {f : α → Except EncodeError γ} {k : β → Except EncodeError δ} (h : Agree R r s)
    (hk : ∀ a b, R a b → Agree R' (f a) (k b)) : Agree R' (r >>= f) (s >>= k) := by
  cases h with
  | naive => exact .naive
  | ok h => exact hk _ _ h

theorem map {f : α → γ} {k : β → δ} (h : Agree R r s) (hk : ∀ a b, R a b → R' (f a) (k b)) :
    Agree R' (r.map f) (s >>= fun b => pure (k b)) := by
  cases h with
  | naive => exact .naive
  | ok h => exact .ok (hk _ _ h)

theorem naive_or_ok (h : Agree R r s) :
    (r = .error .naiveDateTime ∧ s = .error .naiveDateTime) ∨
      ∃ a b, r = .ok a ∧ s = .ok b ∧ R a b := by
  cases h with
  | naive => exact .inl ⟨rfl, rfl⟩
  | ok h => exact .inr ⟨_, _, rfl, rfl, h⟩

end Agree

/-- The value is that of the tree. -/
abbrev IsOf (tree : PlainTree) (w : Value) : Prop := w = tree.toValue

variable {g : Graph} {v : Value}

theorem agree_items {vs : List Value}
    (h : ∀ v ∈ vs, Agree IsOf (ofValue g v) (v.meaning g {})) :
    Agree (fun trees ws => ws = itemValues trees) (ofItems g vs) (itemMeanings g {} vs) := by
  induction vs with
  | nil => exact .ok rfl
  | cons v vs ih =>
    obtain ⟨hv, hvs⟩ := List.forall_mem_cons.1 h
    rw [ofItems, itemMeanings]
    refine hv.bind fun tree w hw => (ih hvs).bind fun trees ws hws => .ok ?_
    rw [itemValues, hw, hws]

/-- A new name goes to the end. -/
theorem put_of_not_mem {members : List (String × PlainTree)} {name : String}
    (h : name ∉ members.map (·.1)) (tree : PlainTree) :
    put members name tree = members ++ [(name, tree)] := by
  induction members with
  | nil => rfl
  | cons m members ih =>
    obtain ⟨n, t⟩ := m
    rw [List.map_cons, List.mem_cons, not_or] at h
    rw [put, if_neg (Ne.symm h.1), ih h.2, List.cons_append]

/-- Under names that are all new, members are stored in order behind those that are there. -/
theorem agree_members {done : List (String × PlainTree)} {ms : List (String × Value)}
    (hk : (done.map (·.1) ++ ms.map (·.1)).Nodup)
    (h : ∀ m ∈ ms, Agree IsOf (ofValue g m.2) (m.2.meaning g {})) :
    Agree (fun trees ws => ∃ new, trees = done ++ new ∧ new.map (·.1) = ms.map (·.1) ∧
        ws = new.map fun m => (KeyText.own m.1, m.2.toValue))
      (ofMembers g done (Members.ofText ms)) (memberMeanings g {} (Members.ofText ms)) := by
  induction ms generalizing done with
  | nil => exact .ok ⟨[], (List.append_nil _).symm, rfl, rfl⟩
  | cons m ms ih =>
    obtain ⟨name, v⟩ := m
    obtain ⟨hv, hms⟩ := List.forall_mem_cons.1 h
    have hnew : name ∉ done.map (·.1) := by
      intro hmem
      exact (List.nodup_append.1 hk).2.2 name hmem name List.mem_cons_self rfl
    -- The tree stores a member before it goes on, the meaning puts it in front of the others after.
    have hmeaning : memberMeanings g {} (Members.ofText ((name, v) :: ms)) =
        v.meaning g {} >>= fun w => memberMeanings g {} (Members.ofText ms) >>=
          fun ws => pure ((KeyText.own name, w) :: ws) := rfl
    have htree : ofMembers g done (Members.ofText ((name, v) :: ms)) =
        ofValue g v >>= fun tree =>
          ofMembers g (put done name tree) (Members.ofText ms) >>= pure := by
      simp only [bind_pure]
      rfl
    rw [hmeaning, htree]
    refine hv.bind fun tree w hw => ?_
    rw [put_of_not_mem hnew]
    have hrest := @ih (done ++ [(name, tree)]) (by simpa using hk) hms
    refine hrest.bind fun trees ws hws => ?_
    obtain ⟨new, rfl, hnames, rfl⟩ := hws
    refine .ok ⟨(name, tree) :: new, ?_, ?_, ?_⟩
    · rw [List.append_assoc, List.singleton_append]
    · rw [List.map_cons, List.map_cons, hnames]
    · rw [List.map_cons, hw]

theorem agree_object {ms : List (String × Value)} (hk : (ms.map (·.1)).Nodup)
    (h : ∀ m ∈ ms, Agree IsOf (ofValue g m.2) (m.2.meaning g {})) :
    Agree IsOf (ofValue g (.object (Members.ofText ms)))
      ((Value.object (Members.ofText ms)).meaning g {}) := by
  rw [ofValue, meaning]
  refine (@agree_members g [] ms hk h).map fun trees ws hws => ?_
  obtain ⟨new, htrees, hnames, rfl⟩ := hws
  rw [List.nil_append] at htrees
  rw [htrees]
  have hnodup : ((new.map fun m => (m.1, m.2.toValue)).map (·.1)).Nodup := by
    rw [List.map_map]
    show (new.map (·.1)).Nodup
    rw [hnames]
    exact hk
  have hwritten : ((({} : Options).arrange (new.map fun m => (KeyText.own m.1, m.2.toValue))).map
      fun m => (m.1.name, m.2)) = new.map fun m => (m.1, m.2.toValue) := by
    rw [Options.arrange, if_neg Bool.false_ne_true, List.map_map]
    rfl
  rw [IsOf, hwritten, Grammar.objectOf, Members.merge_of_nodup hnodup, toValue, memberValues_eq]

/-- A leaf that is written says its text. -/
theorem agree_written {x : Except EncodeError Bytes} (hv : v.isScalar = true)
    (hx : v.leafText {} = x.map quoted) (hplain : ∀ b, x = .ok b → PlainBytes b)
    (hnaive : ∀ y, x = .error y → y = .naiveDateTime) :
    Agree IsOf (written g v) (do return .str (asciiText (← x))) := by
  rw [written_eq hv hx hplain]
  cases x with
  | error y =>
    rw [hnaive y rfl]
    exact .naive
  | ok b => exact .ok rfl

/-- **The tree of a plain value is what its document says.** -/
theorem agree_meaning (hv : v.IsPlain) (g : Graph) :
    Agree IsOf (ofValue g v) (v.meaning g {}) := by
  induction hv with
  | null | bool b | int n | str text => exact .ok rfl
  | float h =>
    rw [ofValue, if_pos h]
    exact .ok rfl
  | dateTime t =>
    exact agree_written rfl rfl (fun _ => .dateTime) fun _ => DateTime.eq_naiveDateTime_of_text
  | date d =>
    exact agree_written (x := .ok d.text) rfl rfl (fun b hb => Except.ok.inj hb ▸ .date d) nofun
  | time t =>
    exact agree_written (x := .ok (t.text {})) rfl rfl (fun b hb => Except.ok.inj hb ▸ .time t {})
      nofun
  | uuid id =>
    exact agree_written (x := .ok id.text) rfl rfl (fun b hb => Except.ok.inj hb ▸ .uuid id) nofun
  | array _ ih =>
    rw [ofValue, meaning]
    refine (agree_items ih).map fun trees ws hws => ?_
    rw [IsOf, toValue, hws]
  | object hk _ ih => exact agree_object hk ih

/-! ## Naive datetimes -/

section Naive

variable {σ : Type} {e : Encoder σ} {p : Path} {budget : Nat} {h h' : σ}

/-- A scalar that has a text is not refused. -/
theorem text_ne_naive_of_leafText {b : Bytes} (he : e.options = {}) (hv : v.isScalar = true)
    (hb : v.leafText {} = .ok b) : e.text budget p v h ≠ .error (.refused .naiveDateTime) h' := by
  intro htext
  cases budget with
  | zero => cases htext
  | succ budget =>
    rw [Encoder.text_of_isScalar (by rw [he]) hv, he, hb] at htext
    cases htext

/-- An array is refused for a naive datetime only if an item is. -/
theorem exists_item_of_naive {vs : List Value}
    (htext : e.text (budget + 1) p (.array vs) h = .error (.refused .naiveDateTime) h') :
    ∃ v ∈ vs, ∃ h₁, e.text budget p.deeper v h₁ = .error (.refused .naiveDateTime) h' := by
  have harray : e.arrayText (e.text budget) p vs h = .error (.refused .naiveDateTime) h' := htext
  rw [arrayText_eq] at harray
  rcases exists_of_containerText_eq_error harray with hx | ⟨y, hy, -⟩ |
    ⟨-, done, v, rest, bs, h₁, hvs, -, hitem⟩
  · cases hx
  · cases hy
  · cases hvs
    exact ⟨v, List.mem_append_right _ List.mem_cons_self, h₁, hitem⟩

/-- Names are text, so an object is refused for a naive datetime only if the value of a member is. -/
theorem exists_member_of_naive {ms : List (String × Value)} (he : e.options = {})
    (htext : e.text (budget + 1) p (.object (Members.ofText ms)) h =
      .error (.refused .naiveDateTime) h') :
    ∃ m ∈ ms, ∃ h₁, e.text budget p.deeper m.2 h₁ = .error (.refused .naiveDateTime) h' := by
  have hobject : e.objectText (e.text budget) p (Members.ofText ms) h =
    .error (.refused .naiveDateTime) h' := htext
  rw [objectText_eq] at hobject
  rcases exists_of_containerText_eq_error hobject with hx | ⟨y, hy, -⟩ |
    ⟨-, done, t, rest, bs, h₁, hts, -, hturn⟩
  · cases hx
  · rw [turns, he] at hy
    cases hy
  · obtain ⟨n, hn, rfl⟩ := exists_of_mem_turns hts (List.mem_append_right _ List.mem_cons_self)
    obtain ⟨m, hm, rfl⟩ := List.mem_map.1 hn
    rcases exists_of_turnText_eq_error hturn with ⟨y, hy, -⟩ | ⟨k, -, hvalue⟩
    · cases hy
    · exact ⟨m, hm, h₁, hvalue⟩

/-- **A plain value that says something is not refused for a naive datetime.** -/
theorem text_ne_naive_of_meaning (he : e.options = {}) (hv : v.IsPlain) {w : Value}
    (hw : v.meaning g {} = .ok w) : e.text budget p v h ≠ .error (.refused .naiveDateTime) h' := by
  induction hv generalizing w budget p h with
  | null | int n | str text | date d | time t | uuid id =>
    exact text_ne_naive_of_leafText he rfl rfl
  | bool b => cases b <;> exact text_ne_naive_of_leafText he rfl rfl
  | float hx => exact text_ne_naive_of_leafText he rfl (if_pos hx)
  | dateTime t =>
    obtain ⟨b, hb, -⟩ := exists_ok_of_bind hw
    exact text_ne_naive_of_leafText he rfl (by rw [leafText, hb]; rfl)
  | array _ ih =>
    obtain ⟨ws, hws, -⟩ := exists_ok_of_bind hw
    intro htext
    cases budget with
    | zero => cases htext
    | succ budget =>
      obtain ⟨v, hmem, h₁, hitem⟩ := exists_item_of_naive htext
      obtain ⟨w, hw⟩ := exists_of_itemMeanings hws v hmem
      exact ih v hmem hw hitem
  | object _ _ ih =>
    obtain ⟨ks, hks, -⟩ := exists_ok_of_bind hw
    intro htext
    cases budget with
    | zero => cases htext
    | succ budget =>
      obtain ⟨m, hm, h₁, hvalue⟩ := exists_member_of_naive he htext
      obtain ⟨w, hw⟩ := exists_of_memberMeanings hks _ (List.mem_map_of_mem hm)
      exact ih m hm hw hvalue

end Naive

end PlainTree

/-! ## The document -/

namespace Value.IsPlain

variable {v w : Value} {l : Lookup}

theorem unfolds (h : v.IsPlain) (hd : l.options.passthroughDatetime = false) : l.Unfolds v v := by
  induction h with
  | array _ ih => exact .array_self ih
  | object _ _ ih => exact .object_map (fun m : String × Value => .str m.1) ih
  | _ => exact .leaf (Lookup.isLeaf_of_isScalar hd rfl)

theorem of_leads (h : v.IsPlain) (hd : l.options.passthroughDatetime = false) (hw : l.Leads v w) :
    w.IsPlain := by
  cases h with
  | array h => exact h w hw.mem_of_array
  | object hk h =>
    obtain ⟨m, hm, rfl⟩ := hw.exists_of_object
    obtain ⟨n, hn, rfl⟩ := List.mem_map.1 hm
    exact h n hn
  | _ => exact absurd hw (Lookup.not_leads_of_isLeaf (Lookup.isLeaf_of_isScalar hd rfl))

theorem readable (h : v.IsPlain) (hd : l.options.passthroughDatetime = false)
    (hn : l.options.allowNonFinite = false) : l.Readable v := by
  have hfragment : l.NoFragment v :=
    .of_closed IsPlain h (fun _ _ hu => hu.of_leads hd) fun _ hf => nomatch hf
  exact hfragment.readable hn

end Value.IsPlain

namespace PlainTree

variable {v : Value}

/-- **A plain value whose document is written has a tree, which is what that document is read as; and
one that is refused for a naive datetime has none, for the same reason.** A reader without a limit on
the size of its input reads a document of any length; the default one (`Codec.decode`) reads the same
from a document within its input limit of 2 GiB, and refuses a longer one unread. -/
theorem ofValue_document (hv : v.IsPlain) (g : Graph) :
    (∀ b, (Codec.encodeWith 0 g none () v).1 = .ok b → ∃ tree, ofValue g v = .ok tree ∧
      Document.decodeAnySize b = .ok tree.toValue ∧
      (b.length ≤ Limits.maxInputSize → Codec.decode b = .ok tree.toValue)) ∧
    ((Codec.encodeWith 0 g none () v).1 = .error (.encode .naiveDateTime) →
      ofValue g v = .error .naiveDateTime) := by
  have hagree := (agree_meaning hv g).naive_or_ok
  constructor
  · intro b hb
    let l : Lookup := { graph := g }
    obtain ⟨c, hc, hdocument⟩ := (@Codec.encodeWith_eq_ok_iff 0 {} g none v b rfl).1 hb
    obtain ⟨tree, w, hunfold, hmean, hdenote⟩ := l.says_of_gives _ {} v c (hv.readable rfl rfl) hc
    obtain rfl := (hv.unfolds rfl).unique hunfold
    have hmean : tree.meaning g {} = .ok w := hmean
    have hread : Document.decodeAnySize b = .ok w := by
      rw [hdocument]
      exact Document.decodeAnySize_eq_ok_iff.2 (Codec.spaced_document (hdenote _ (Nat.le_refl _)))
    rcases hagree with ⟨-, hnaive⟩ | ⟨t, u, htree, hu, rfl⟩
    · rw [hnaive] at hmean
      cases hmean
    · rw [hu] at hmean
      cases hmean
      refine ⟨t, htree, hread, fun hsize => ?_⟩
      rw [Codec.decode, Document.decode_eq_decodeAnySize hsize, hread]
  · intro hb
    rcases hagree with ⟨hnaive, -⟩ | ⟨t, u, -, hu, -⟩
    · exact hnaive
    · obtain ⟨h, htext⟩ :=
        Codec.exists_refused_of_encodeWith (x := .naiveDateTime) (o := {}) rfl (by simp) hb
      exact absurd htext (text_ne_naive_of_meaning rfl hv hu)

/-- A leap day, and an item that has a quote in it beside a UUID, under names that are out of order. -/
def nested : Value := .object (Members.ofText
  [("on", .date ⟨1600, 2, 29, by decide, by decide⟩), ("by", .array [.str "\"", .uuid ⟨0⟩])])

theorem ofValue_document_nested :
    let b := Utf8.encode
      "\x7b\"on\":\"1600-02-29\",\"by\":[\"\\\"\",\"00000000-0000-0000-0000-000000000000\"]\x7d"
    nested.IsPlain ∧ (Codec.encodeWith 0 .empty none () nested).1 = .ok b ∧
      ∃ tree, ofValue .empty nested = .ok tree ∧ Document.decodeAnySize b = .ok tree.toValue ∧
        (b.length ≤ Limits.maxInputSize → Codec.decode b = .ok tree.toValue) := by
  intro b
  have hplain : nested.IsPlain := by
    refine .object (by decide) (List.forall_mem_cons.2 ⟨.date _, List.forall_mem_singleton.2 ?_⟩)
    exact .array (List.forall_mem_cons.2 ⟨.str _, List.forall_mem_singleton.2 (.uuid _)⟩)
  have hencode : (Codec.encodeWith 0 .empty none () nested).1 = .ok b := by
    rw [Codec.encodeWith_eq (o := {}) rfl]
    rfl
  exact ⟨hplain, hencode, (ofValue_document hplain .empty).1 b hencode⟩

end PlainTree

end JsonCodec
