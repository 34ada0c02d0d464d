/-
Well-formed values are written just if they are not nested too deep, whatever the hook and the state
that it keeps, and are read back as they were (`Codec.encodeWith_wellFormed`).

The hook is never asked about such a value. So its text, or that it is refused, depends on nothing
but the options and the path (`Settled`), and what is known of the text in one encoder holds in all.
-/
import JsonCodec.Proofs.Native

namespace JsonCodec

open Encoder Ascii

/-- All encoders with these options give the same text for `v`. -/
def AllGive (o : Options) (budget : Nat) (p : Path) (v : Value) (b : Bytes) : Prop :=
  ∀ {σ : Type} (e : Encoder σ), e.options = o → Gives (e.text budget p v) b

/-- All encoders with these options refuse `v`. -/
def AllRefuse (o : Options) (budget : Nat) (p : Path) (v : Value) (x : EncodeError) : Prop :=
  ∀ {σ : Type} (e : Encoder σ), e.options = o → Refuses (e.text budget p v) x

variable {o : Options} {budget : Nat} {p : Path} {v : Value}

/-- An array is given the text of its items, whatever these are listed by. -/
theorem allGive_array {ι : Type} {xs : List ι} {val : ι → Value} {B : ι → Bytes}
    (hd : p.depth < Limits.maxDepth) (h : ∀ x ∈ xs, AllGive o budget p.deeper (val x) (B x)) :
    AllGive o (budget + 1) p (.array (xs.map val))
      (o.bracketed p.depth bracketOpen bracketClose (xs.map B)) := by
  intro σ e he
  subst he
  exact gives_arrayText hd fun x hx => h x hx e rfl

/-- An object is given the text of its members in the order written. -/
theorem allGive_object {ι : Type} {xs : List ι} {name : ι → String} {val : ι → Value}
    {B : ι → Bytes} (hd : p.depth < Limits.maxDepth)
    (h : ∀ x ∈ xs, AllGive o budget p.deeper (val x) (B x)) :
    AllGive o (budget + 1) p (.object (Members.ofText (xs.map fun x => (name x, val x))))
      (o.bracketed p.depth braceOpen braceClose
        ((o.arrange (xs.map fun x => (KeyText.own (name x), B x))).map o.memberBytes)) := by
  intro σ e he
  subst he
  have hobject : Gives (e.objectText (e.text budget) p
      (xs.map fun x => (Value.str (name x), val x))) _ :=
    gives_objectText hd (fun x _ => rfl) fun x hx => h x hx e rfl
  rw [Members.ofText, List.map_map]
  exact hobject

theorem exists_allGive_array {vs : List Value} (hd : p.depth < Limits.maxDepth)
    (h : ∀ v ∈ vs, ∃ b, AllGive o budget p.deeper v b) :
    ∃ b, AllGive o (budget + 1) p (.array vs) b := by
  choose! B hB using h
  have harray : AllGive o (budget + 1) p (.array (vs.map id)) _ := allGive_array hd hB
  rw [List.map_id] at harray
  exact ⟨_, harray⟩

theorem exists_allGive_object {ms : List (String × Value)} (hd : p.depth < Limits.maxDepth)
    (h : ∀ m ∈ ms, ∃ b, AllGive o budget p.deeper m.2 b) :
    ∃ b, AllGive o (budget + 1) p (.object (Members.ofText ms)) b := by
  choose! B hB using h
  have hobject : AllGive o (budget + 1) p (.object (Members.ofText (ms.map fun m => (m.1, m.2)))) _ :=
    allGive_object hd hB
  rw [List.map_id'] at hobject
  exact ⟨_, hobject⟩

theorem allRefuse_array {vs : List Value} {x : EncodeError} (hd : p.depth < Limits.maxDepth)
    (h : ∀ v ∈ vs, (∃ b, AllGive o budget p.deeper v b) ∨ AllRefuse o budget p.deeper v x)
    (hx : ∃ v ∈ vs, AllRefuse o budget p.deeper v x) :
    AllRefuse o (budget + 1) p (.array vs) x := by
  obtain ⟨v, hv, hr⟩ := hx
  intro σ e he
  have harray : Refuses (e.arrayText (e.text budget) p (vs.map id)) x := by
    refine refuses_arrayText hd (fun w hw => ?_) ⟨v, hv, hr e he⟩
    exact (h w hw).imp (fun ⟨b, hb⟩ => ⟨b, hb e he⟩) fun hw => hw e he
  rwa [List.map_id] at harray

theorem allRefuse_object {ms : List (String × Value)} {x : EncodeError}
    (hd : p.depth < Limits.maxDepth)
    (h : ∀ m ∈ ms, (∃ b, AllGive o budget p.deeper m.2 b) ∨ AllRefuse o budget p.deeper m.2 x)
    (hx : ∃ m ∈ ms, AllRefuse o budget p.deeper m.2 x) :
    AllRefuse o (budget + 1) p (.object (Members.ofText ms)) x := by
  obtain ⟨m, hm, hr⟩ := hx
  intro σ e he
  have hobject : Refuses (e.objectText (e.text budget) p
      (ms.map fun m => (Value.str m.1, m.2))) x := by
    refine refuses_objectText hd (K := fun m : String × Value => .own m.1) (fun m _ => rfl)
      (fun n hn => ?_) ⟨m, hm, hr e he⟩
    exact (h n hn).imp (fun ⟨b, hb⟩ => ⟨b, hb e he⟩) fun hn => hn e he
  exact hobject

theorem allRefuse_array_of_ge {vs : List Value} (hd : Limits.maxDepth ≤ p.depth) :
    AllRefuse o (budget + 1) p (.array vs) .recursionLimit := by
  intro σ e he
  have harray : e.arrayText (e.text budget) p vs = _ := containerText_of_ge hd
  rw [text, textWith, harray]
  exact refuses_refuse _

theorem allRefuse_object_of_ge {ms : Members} (hd : Limits.maxDepth ≤ p.depth) :
    AllRefuse o (budget + 1) p (.object ms) .recursionLimit := by
  intro σ e he
  have hobject : e.objectText (e.text budget) p ms = _ := containerText_of_ge hd
  rw [text, textWith, hobject]
  exact refuses_refuse _

/-- `v` is given a text if there are levels enough left for it, and else is refused. -/
def Settled (o : Options) (budget : Nat) (p : Path) (v : Value) : Prop :=
  p.depth + v.depth ≤ Limits.maxDepth ∧ (∃ b, AllGive o budget p v b) ∨
    Limits.maxDepth < p.depth + v.depth ∧ AllRefuse o budget p v .recursionLimit

theorem Settled.exists_allGive (h : Settled o budget p v)
    (hd : p.depth + v.depth ≤ Limits.maxDepth) : ∃ b, AllGive o budget p v b := by
  rcases h with ⟨-, hb⟩ | ⟨hgt, -⟩
  · exact hb
  · exact absurd hd (Nat.not_le.2 hgt)

theorem Settled.allRefuse (h : Settled o budget p v)
    (hd : Limits.maxDepth < p.depth + v.depth) : AllRefuse o budget p v .recursionLimit := by
  rcases h with ⟨hle, -⟩ | ⟨-, hr⟩
  · exact absurd hle (Nat.not_le.2 hd)
  · exact hr

/-- A container is settled if what is inside it is: it needs one level more than the deepest. -/
theorem settled_container {ι : Type} {xs : List ι} {val : ι → Value} {d : Nat}
    (hv : v.depth = d + 1) (hd : ∀ n, d ≤ n ↔ ∀ x ∈ xs, (val x).depth ≤ n)
    (give : p.depth < Limits.maxDepth → (∀ x ∈ xs, ∃ b, AllGive o budget p.deeper (val x) b) →
      ∃ b, AllGive o (budget + 1) p v b)
    (refuse : p.depth < Limits.maxDepth →
      (∀ x ∈ xs, (∃ b, AllGive o budget p.deeper (val x) b) ∨
        AllRefuse o budget p.deeper (val x) .recursionLimit) →
      (∃ x ∈ xs, AllRefuse o budget p.deeper (val x) .recursionLimit) →
      AllRefuse o (budget + 1) p v .recursionLimit)
    (full : Limits.maxDepth ≤ p.depth → AllRefuse o (budget + 1) p v .recursionLimit)
    (h : p.depth < Limits.maxDepth → ∀ x ∈ xs, Settled o budget p.deeper (val x)) :
    Settled o (budget + 1) p v := by
  by_cases hp : p.depth < Limits.maxDepth
  · have hdeeper : p.deeper.depth = p.depth + 1 := rfl
    by_cases hall : ∀ x ∈ xs, (val x).depth ≤ Limits.maxDepth - (p.depth + 1)
    · have hle := (hd _).2 hall
      refine .inl ⟨by omega, give hp fun x hx => ?_⟩
      have hx' := hall x hx
      exact (h hp x hx).exists_allGive (by omega)
    · have hgt : ¬d ≤ Limits.maxDepth - (p.depth + 1) := fun hle => hall ((hd _).1 hle)
      simp only [not_forall] at hall
      obtain ⟨x, hx, hx'⟩ := hall
      refine .inr ⟨by omega, refuse hp (fun y hy => ?_) ⟨x, hx, ?_⟩⟩
      · exact (h hp y hy).imp (·.2) (·.2)
      · exact (h hp x hx).allRefuse (by omega)
  · exact .inr ⟨by omega, full (Nat.le_of_not_lt hp)⟩

theorem settled_array {vs : List Value}
    (h : p.depth < Limits.maxDepth → ∀ v ∈ vs, Settled o budget p.deeper v) :
    Settled o (budget + 1) p (.array vs) :=
  settled_container rfl (fun _ => Value.itemDepth_le_iff) exists_allGive_array allRefuse_array
    allRefuse_array_of_ge h

theorem settled_object {ms : List (String × Value)}
    (h : p.depth < Limits.maxDepth → ∀ m ∈ ms, Settled o budget p.deeper m.2) :
    Settled o (budget + 1) p (.object (Members.ofText ms)) :=
  settled_container rfl (fun _ => Value.memberDepth_le_iff) exists_allGive_object allRefuse_object
    allRefuse_object_of_ge h

/-- A leaf needs no level. -/
theorem settled_leaf {b : Bytes} (hd : p.depth ≤ Limits.maxDepth) (hv : v.depth = 0)
    (h : ∀ {σ : Type} (e : Encoder σ), e.options = o → Gives (e.textWith (e.text budget) p v) b) :
    Settled o (budget + 1) p v :=
  .inl ⟨by rw [hv]; exact hd, b, h⟩

/-- **A well-formed value is given a text just if there are levels enough left for it.** -/
theorem settled_of_wellFormed (hs : o.strictInteger = false) (h : v.WellFormed) (budget : Nat)
    (p : Path) (hd : p.depth ≤ Limits.maxDepth) (hb : Limits.maxDepth - p.depth < budget) :
    Settled o budget p v := by
  obtain ⟨budget, rfl⟩ : ∃ k, budget = k + 1 := ⟨budget - 1, by omega⟩
  have scalar {x : Except EncodeError Bytes} {b : Bytes} (hx : x = .ok b) (σ : Type) :
      Gives (TextM.lift x : TextM σ Bytes) b := by
    rw [hx]
    exact gives_pure b
  induction h generalizing budget p with
  | array _ ih =>
    refine settled_array fun hlt v hv => ?_
    obtain ⟨k, rfl⟩ : ∃ k, budget = k + 1 := ⟨budget - 1, by omega⟩
    exact ih v hv p.deeper hlt k (by simp only [Path.deeper]; omega)
  | object _ _ ih =>
    refine settled_object fun hlt m hm => ?_
    obtain ⟨k, rfl⟩ : ∃ k, budget = k + 1 := ⟨budget - 1, by omega⟩
    exact ih m hm p.deeper hlt k (by simp only [Path.deeper]; omega)
  | null => exact settled_leaf hd rfl fun _ _ => gives_pure _
  | bool b => cases b <;> exact settled_leaf hd rfl fun _ _ => gives_pure _
  | int n =>
    refine settled_leaf (b := Scalar.int64 n) hd rfl fun {σ} e he => scalar ?_ σ
    rw [Scalar.int, he, hs]
    rfl
  | @bigInt n _ =>
    refine settled_leaf (b := n.text) hd rfl fun {σ} e he => scalar ?_ σ
    rw [Scalar.bigInt, he, hs]
    rfl
  | @float x hx =>
    refine settled_leaf (b := x.text) hd rfl fun {σ} e _ => scalar ?_ σ
    rw [Scalar.float, if_pos hx]
  | str text =>
    exact settled_leaf (b := Quoted.literal o.asciiOnly text) hd rfl
      fun e he => he ▸ gives_pure (Quoted.literal e.options.asciiOnly text)

namespace Codec

/-- What all encoders give is what the encoder without a graph and a hook gives, and so denotes the
value. -/
theorem denotes_of_allGive {b : Bytes} (hv : v.WellFormed) (hb : AllGive o Encoder.budget {} v b) :
    Grammar.Denotes NumberLiteral.exponentSize Limits.maxDepth b (v.readBack o) := by
  let l : Lookup := { options := o }
  obtain ⟨tree, w, hunfold, hmean, hdenote⟩ :=
    l.says_of_gives Encoder.budget {} v b (hv.readable l) (hb l.encoder rfl)
  obtain rfl := (hv.unfolds l).unique hunfold
  have hw : w = tree.readBack o := Except.ok.inj (hmean.symm.trans (hv.meaning_eq _ _))
  subst hw
  exact hdenote _ (Nat.le_refl _)

theorem decode_of_allGive {b : Bytes} (hv : v.WellFormed) (hb : AllGive o Encoder.budget {} v b)
    (hsize : (document o b).length ≤ Limits.maxInputSize) :
    decode (document o b) = .ok (v.readBack o) :=
  decode_document (denotes_of_allGive hv hb) hsize

/-- **A well-formed value that is nested no deeper than the limit is written, and its document is
read as that value, with its members in the order written; one that is nested deeper is refused.** -/
theorem encodeWith_wellFormed {σ : Type} {mask : UInt32} (hm : Options.ofMask? mask = .ok o)
    (hs : o.strictInteger = false) (hv : v.WellFormed) (g : Graph) (hook : Option (Hook σ)) (h : σ) :
    (v.depth ≤ Limits.maxDepth → ∃ b, (encodeWith mask g hook h v).1 = .ok b ∧
      (b.length ≤ Limits.maxInputSize → decode b = .ok (v.readBack o))) ∧
    (Limits.maxDepth < v.depth →
      (encodeWith mask g hook h v).1 = .error (.encode .recursionLimit)) := by
  have hsettled : Settled o Encoder.budget {} v :=
    settled_of_wellFormed hs hv Encoder.budget {} (Nat.zero_le _) (by decide)
  have hzero : ({} : Path).depth + v.depth = v.depth := Nat.zero_add _
  have hencode := encodeWith_eq hm g hook h v
  constructor
  · intro hd
    obtain ⟨b, hb⟩ := hsettled.exists_allGive (by rwa [hzero])
    rw [hb (Encoder.mk o g hook) rfl h] at hencode
    exact ⟨document o b, congrArg Prod.fst hencode, decode_of_allGive hv hb⟩
  · intro hd
    rw [hsettled.allRefuse (by rwa [hzero]) (Encoder.mk o g hook) rfl h] at hencode
    exact congrArg Prod.fst hencode

/-- Negative zero, a large integer and an empty object, under keys that are out of order. -/
theorem encodeWith_wellFormed_unordered :
    let v := Value.object (Members.ofText
      [("b", .float ⟨0x8000000000000000⟩), ("a", .array [.bigInt ⟨2 ^ 63⟩, .object []])])
    let o : Options := { sortKeys := true }
    ∃ b, (encodeWith 0x20 .empty (none : Option (Hook Unit)) () v).1 = .ok b ∧
      (b.length ≤ Limits.maxInputSize → decode b = .ok (v.readBack o)) := by
  intro v o
  have hv : v.WellFormed := by
    refine .object (by decide) (List.forall_mem_cons.2 ⟨.float (by decide), ?_⟩)
    refine List.forall_mem_singleton.2 (.array (List.forall_mem_cons.2 ⟨.bigInt (by decide), ?_⟩))
    exact List.forall_mem_singleton.2 (@Value.WellFormed.object [] .nil (List.forall_mem_nil _))
  exact (encodeWith_wellFormed (o := o) rfl rfl hv .empty none ()).1 (by decide)

end Codec

end JsonCodec
