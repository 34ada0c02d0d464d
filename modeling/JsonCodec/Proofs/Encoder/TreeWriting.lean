/-
A value and the tree that it is unfolded into are written alike (`encodeWith_tree`).

The tree is written without handles and hook, so with fewer levels open and fewer values inside one
another: what the guards let through for the value they let through for the tree. Where lines are
indented by level, the two differ in their blanks.
-/
import JsonCodec.Proofs.Encoder.Session
import JsonCodec.Proofs.Encoder.Written

namespace JsonCodec

/-- Without lines the level of a container does not show. -/
theorem Options.bracketed_eq {o : Options} (h : o.indent2 = false) (d d' : Nat) (left right : UInt8)
    (parts : List Bytes) : o.bracketed d left right parts = o.bracketed d' left right parts := by
  have hbreak (d : Nat) : o.breakAt d = [] := by rw [breakAt, h]; rfl
  have hlead (d d' : Nat) : o.leadAt d = o.leadAt d' :=
    funext fun first => by rw [leadAt, leadAt, hbreak, hbreak]
  rw [bracketed, bracketed, hbreak, hbreak, hlead (d + 1) (d' + 1)]

namespace Lookup

open Encoder

/-- `tree` has the text `b` without the hook, wherever there are no fewer values to be written and
no more levels open. -/
def WritesTree (l : Lookup) (budget : Nat) (p : Path) (tree : Value) (b : Bytes) : Prop :=
  ∀ n, budget ≤ n → ∀ q : Path, q.depth ≤ p.depth → Gives (l.hookless.encoder.text n q tree) b

variable {l : Lookup} {budget n : Nat} {p q : Path} {v : Value} {b : Bytes}

theorem WritesTree.mono {tree : Value} (h : l.WritesTree budget q tree b) (hn : budget ≤ n)
    (hd : p.depth ≤ q.depth) : l.WritesTree n p tree b :=
  fun k hk r hr => h k (Nat.le_trans hn hk) r (Nat.le_trans hr hd)

/-- It is enough to look at the value itself, with one value less inside it. -/
theorem WritesTree.of_textWith {tree : Value}
    (h : ∀ n, budget ≤ n → ∀ q : Path, q.depth ≤ p.depth →
      Gives (l.hookless.encoder.textWith (l.hookless.encoder.text n) q tree) b) :
    l.WritesTree (budget + 1) p tree b := by
  intro n hn q hq
  obtain ⟨n, rfl⟩ := Nat.exists_eq_add_of_lt hn
  exact h _ (by omega) q hq

theorem textWith_of_isLeaf {recur recur' : Path → Value → TextM Unit Bytes}
    (h : l.isLeaf v = true) (p q : Path) :
    l.hookless.encoder.textWith recur' q v = l.encoder.textWith recur p v := by
  cases v with
  | array _ | object _ | shared _ | foreign _ _ => cases h
  | dateTime _ | date _ | time _ =>
    have hp : l.options.passthroughDatetime = false := by simpa [isLeaf] using h
    simp only [textWith, temporalText, options_encoder, options_hookless, hp, Bool.false_eq_true,
      ite_false]
  | bool b => cases b <;> rfl
  | _ => rfl

variable (ih : ∀ p v b, Gives (l.encoder.text budget p v) b →
  ∃ tree, l.Unfolds v tree ∧ l.WritesTree budget p tree b)
include ih

theorem exists_tree_of_array (hi : l.options.indent2 = false) {vs : List Value}
    (h : Gives (l.encoder.arrayText (l.encoder.text budget) p vs) b) :
    ∃ tree, l.Unfolds (.array vs) tree ∧ l.WritesTree (budget + 1) p tree b := by
  obtain ⟨hd, B, hB, rfl⟩ := exists_of_gives_arrayText h
  have htrees : ∀ v ∈ vs, ∃ tree, l.Unfolds v tree ∧ l.WritesTree budget p.deeper tree (B v) :=
    fun v hv => ih _ _ _ (hB v hv)
  choose! tree hunfold hwrite using htrees
  refine ⟨.array (vs.map tree), ?_, .of_textWith fun n hn q hq => ?_⟩
  · have harray : l.Unfolds (.array (vs.map id)) (.array (vs.map tree)) :=
      Unfolds.array_map hunfold
    rwa [List.map_id] at harray
  · rw [options_encoder, Options.bracketed_eq hi p.depth q.depth]
    refine gives_arrayText (Nat.lt_of_le_of_lt hq hd) fun v hv => ?_
    exact hwrite v hv n hn q.deeper (Nat.succ_le_succ hq)

theorem exists_tree_of_object (hi : l.options.indent2 = false) {ms : Members}
    (h : Gives (l.encoder.objectText (l.encoder.text budget) p ms) b) :
    ∃ tree, l.Unfolds (.object ms) tree ∧ l.WritesTree (budget + 1) p tree b := by
  obtain ⟨hd, K, B, hK, hB, rfl⟩ := exists_of_gives_objectText h
  have htrees : ∀ m ∈ ms, ∃ tree, l.Unfolds m.2 tree ∧ l.WritesTree budget p.deeper tree (B m) :=
    fun m hm => ih _ _ _ (hB m hm)
  choose! tree hunfold hwrite using htrees
  refine ⟨.object (ms.map fun m => (m.1, tree m)), ?_, .of_textWith fun n hn q hq => ?_⟩
  · have hobject := Unfolds.object_map Prod.fst hunfold
    rwa [List.map_id'] at hobject
  · rw [options_encoder, Options.bracketed_eq hi p.depth q.depth]
    refine gives_objectText (Nat.lt_of_le_of_lt hq hd) hK fun m hm => ?_
    exact hwrite m hm n hn q.deeper (Nat.succ_le_succ hq)

omit ih

/-- **What has a text can be unfolded, and the tree has the same text.** -/
theorem exists_tree (hi : l.options.indent2 = false) (budget : Nat) (p : Path) (v : Value) (b : Bytes)
    (h : Gives (l.encoder.text budget p v) b) :
    ∃ tree, l.Unfolds v tree ∧ l.WritesTree budget p tree b := by
  induction budget generalizing p v b with
  | zero => cases h ()
  | succ budget ih =>
    cases written_of_gives h with
    | leaf hl hb =>
      exact ⟨v, .leaf hl, .of_textWith fun n _ q _ => textWith_of_isLeaf hl p q ▸ hb⟩
    | array hb => exact exists_tree_of_array ih hi hb
    | object hb => exact exists_tree_of_object ih hi hb
    | found hw hd hb =>
      obtain ⟨tree, hunfold, hwrite⟩ := ih _ _ _ hb
      exact ⟨tree, .found hw hunfold, hwrite.mono (Nat.le_succ _) hd⟩
    | fields hw hd hb =>
      obtain ⟨tree, hunfold, hwrite⟩ := exists_tree_of_object ih hi hb
      exact ⟨tree, .found hw hunfold, hwrite.mono (Nat.le_refl _) hd⟩

end Lookup

namespace Codec

open Lookup

variable {mask : UInt32} {o : Options} {g : Graph} {hook : Option (Value → Option Value)}
  {v : Value} {b : Bytes}

theorem encodeWith_eq_ok_iff (hm : Options.ofMask? mask = .ok o) :
    (encodeWith mask g (hook.map Hook.ofFunction) () v).1 = .ok b ↔
      ∃ c, Gives ((Lookup.mk o g hook).encoder.text Encoder.budget {} v) c ∧
        b = Encoder.document o c := by
  have hencode := encodeWith_eq hm g (hook.map Hook.ofFunction) () v
  cases ht : (Lookup.mk o g hook).encoder.text Encoder.budget {} v () with
  | ok c h =>
    have ht' : (Encoder.mk o g (hook.map Hook.ofFunction)).text Encoder.budget {} v () = .ok c h := ht
    rw [ht'] at hencode
    simp [hencode, Gives, ht, eq_comm]
  | error stop h =>
    have ht' : (Encoder.mk o g (hook.map Hook.ofFunction)).text Encoder.budget {} v () =
      .error stop h := ht
    rw [ht'] at hencode
    simp [hencode, Gives, ht]

/-- **A value that is written is unfolded into one tree, in which there is nothing left to be looked
up, and the tree is written alike without the hook.** -/
theorem encodeWith_tree (hm : Options.ofMask? mask = .ok o) (hi : o.indent2 = false)
    (h : (encodeWith mask g (hook.map Hook.ofFunction) () v).1 = .ok b) :
    ∃ tree, (∀ t, (Lookup.mk o g hook).Unfolds v t ↔ t = tree) ∧
      (Lookup.mk o g none).Unfolds tree tree ∧ (encodeWith mask g none () tree).1 = .ok b := by
  obtain ⟨c, hc, rfl⟩ := (encodeWith_eq_ok_iff hm).1 h
  obtain ⟨tree, hunfold, hwrite⟩ := exists_tree (l := ⟨o, g, hook⟩) hi _ _ _ _ hc
  refine ⟨tree, fun t => ⟨hunfold.unique, fun ht => ht ▸ hunfold⟩, hunfold.tree_hookless, ?_⟩
  have htree := hwrite _ (Nat.le_refl _) {} (Nat.le_refl _)
  exact (@encodeWith_eq_ok_iff mask o g none tree _ hm).2 ⟨c, htree, rfl⟩

/-- A node that is met twice, and a value that the hook has an answer for. -/
theorem encodeWith_tree_of_shared :
    let g := Graph.empty.setNode ⟨0⟩ (.array [.null])
    let hook : Value → Option Value := fun _ => some (.bool true)
    let v := Value.array [.shared ⟨0⟩, .shared ⟨0⟩, .foreign ⟨0⟩ "decimal"]
    ∃ tree, (∀ t, (Lookup.mk {} g (some hook)).Unfolds v t ↔ t = tree) ∧
      (Lookup.mk {} g none).Unfolds tree tree ∧
      (encodeWith 0 g none () tree).1 = .ok (Utf8.encode "[[null],[null],true]") :=
  encodeWith_tree (o := {}) rfl rfl rfl

end Codec

end JsonCodec
