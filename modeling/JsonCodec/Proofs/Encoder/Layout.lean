/-
Containers as the grammar reads them. Commas, colons and blanks stand where the grammar has them,
whatever the options: parts that denote values make a container that denotes these values
(`denotes_array`, `denotes_object`).
-/
import JsonCodec.Proofs.Encoder.Success
import JsonCodec.Proofs.Encoder.Tokens

namespace JsonCodec

open Ascii Grammar NumberLiteral

namespace Options

variable (o : Options)

theorem blanks_breakAt (depth : Nat) : Blanks (o.breakAt depth) := by
  rw [breakAt]
  split
  · refine List.forall_mem_cons.2 ⟨rfl, fun b hb => ?_⟩
    rw [List.eq_of_mem_replicate hb]
    rfl
  · exact List.forall_mem_nil _

/-- Behind the first part each has a comma in front of it. -/
theorem joined_false (depth : Nat) (b : Bytes) (bs : List Bytes) :
    joined (o.leadAt depth) false (b :: bs) = comma :: joined (o.leadAt depth) true (b :: bs) := rfl

theorem joined_true (depth : Nat) (b : Bytes) (bs : List Bytes) :
    joined (o.leadAt depth) true (b :: bs) =
      o.breakAt depth ++ b ++ joined (o.leadAt depth) false bs := rfl

end Options

variable {ι : Type} {o : Options} {depth levels : Nat} {B : ι → Bytes} {W : ι → Value}
  {K : ι → KeyText} {after : Bytes}

theorem spaced_of_denotes {levels : Nat} {before bytes after : Bytes} {v : Value}
    (hb : Blanks before) (ha : Blanks after) (h : Denotes exponentSize levels bytes v) :
    Spaced exponentSize levels (before ++ bytes ++ after) v := .mk hb h ha

theorem items_joined (ha : Blanks after) (x : ι) (xs : List ι)
    (h : ∀ y ∈ x :: xs, Denotes exponentSize levels (B y) (W y)) :
    Items exponentSize levels (joined (o.leadAt depth) true ((x :: xs).map B) ++ after)
      ((x :: xs).map W) := by
  have hblanks := o.blanks_breakAt depth
  induction xs generalizing x with
  | nil =>
    rw [List.map_singleton, List.map_singleton, o.joined_true, joined, List.append_nil]
    exact .one (spaced_of_denotes hblanks ha (h x List.mem_cons_self))
  | cons y xs ih =>
    have hrest := ih y fun z hz => h z (List.mem_cons_of_mem _ hz)
    have hx := spaced_of_denotes hblanks (List.forall_mem_nil _) (h x List.mem_cons_self)
    have hall := Items.more hx hrest
    rw [List.append_nil] at hall
    rw [List.map_cons, List.map_cons, o.joined_true, o.joined_false, List.append_assoc]
    exact hall

/-- **Items that denote values make an array that denotes them.** -/
theorem denotes_array (xs : List ι) (h : ∀ x ∈ xs, Denotes exponentSize levels (B x) (W x)) :
    Denotes exponentSize (levels + 1)
      (o.bracketed depth bracketOpen bracketClose (xs.map B)) (.array (xs.map W)) := by
  cases xs with
  | nil => exact .emptyArray (List.forall_mem_nil _)
  | cons x xs => exact .array (items_joined (o.blanks_breakAt depth) x xs h)

theorem key_quoted {k : KeyText} {before : Bytes} (hb : Blanks before) (hk : k.IsSound) :
    Key (before ++ k.quoted o) k.name := by
  have hkey := Key.mk hb (KeyText.text_quoted hk o) (List.forall_mem_nil _)
  rwa [List.append_nil] at hkey

theorem exists_afterKey (o : Options) : ∃ blanks, Blanks blanks ∧ o.afterKey = colon :: blanks := by
  rw [Options.afterKey]
  split
  · exact ⟨[space], List.forall_mem_singleton.2 rfl, rfl⟩
  · exact ⟨[], List.forall_mem_nil _, rfl⟩

theorem fields_joined (ha : Blanks after) (x : ι) (xs : List ι) (hK : ∀ y ∈ x :: xs, (K y).IsSound)
    (h : ∀ y ∈ x :: xs, Denotes exponentSize levels (B y) (W y)) :
    Fields exponentSize levels
      (joined (o.leadAt depth) true ((x :: xs).map fun y => o.memberBytes (K y, B y)) ++ after)
      ((x :: xs).map fun y => ((K y).name, W y)) := by
  have hblanks := o.blanks_breakAt depth
  obtain ⟨blanks, hspace, hcolon⟩ := exists_afterKey o
  have hkey := key_quoted (o := o) hblanks (hK x List.mem_cons_self)
  induction xs generalizing x with
  | nil =>
    have hx := spaced_of_denotes hspace ha (h x List.mem_cons_self)
    have hall := Fields.one hkey hx
    rw [List.map_singleton, List.map_singleton, o.joined_true, joined, Options.memberBytes, hcolon]
    simpa only [List.append_assoc, List.cons_append, List.append_nil] using hall
  | cons y xs ih =>
    have hrest := ih y (fun z hz => hK z (List.mem_cons_of_mem _ hz))
      (fun z hz => h z (List.mem_cons_of_mem _ hz))
      (key_quoted hblanks (hK y (List.mem_cons_of_mem _ List.mem_cons_self)))
    have hx := spaced_of_denotes hspace (List.forall_mem_nil _) (h x List.mem_cons_self)
    have hall := Fields.more hkey hx hrest
    rw [List.map_cons, List.map_cons, o.joined_true, List.map_cons, o.joined_false,
      Options.memberBytes, hcolon]
    simpa only [List.append_assoc, List.cons_append, List.append_nil, List.map_cons] using hall

/-- **Keys, and values that denote, make an object of these members in the order written.** -/
theorem denotes_object (ms : List (KeyText × ι)) (hK : ∀ m ∈ ms, m.1.IsSound)
    (h : ∀ m ∈ ms, Denotes exponentSize levels (B m.2) (W m.2)) :
    Denotes exponentSize (levels + 1)
      (o.bracketed depth braceOpen braceClose (ms.map fun m => o.memberBytes (m.1, B m.2)))
      (objectOf (ms.map fun m => (m.1.name, W m.2))) := by
  cases ms with
  | nil => exact .emptyObject (List.forall_mem_nil _)
  | cons m ms => exact .object (fields_joined (o.blanks_breakAt depth) m ms hK h)

end JsonCodec
