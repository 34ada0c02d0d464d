/-
The ways in which a value comes to its text (`Lookup.Written`): it is a leaf or a container, or it
has the text of what is written in its place, further down the path. Statements on texts go by
cases on these.
-/
import JsonCodec.Proofs.Encoder.Success
import JsonCodec.Proofs.Encoder.Unfolding

namespace JsonCodec.Lookup

open Encoder Gives

/-- How the text `b` of `v` at the path `p` comes about, given the texts of other values. -/
inductive Written (l : Lookup) (recur : Path → Value → TextM Unit Bytes) (p : Path) :
    (v : Value) → (b : Bytes) → Prop
  | leaf {v : Value} {b : Bytes} (h : l.isLeaf v = true)
    (hb : Gives (l.encoder.textWith recur p v) b) : Written l recur p v b
  | array {vs : List Value} {b : Bytes} (hb : Gives (l.encoder.arrayText recur p vs) b) :
    Written l recur p (.array vs) b
  | object {ms : Members} {b : Bytes} (hb : Gives (l.encoder.objectText recur p ms) b) :
    Written l recur p (.object ms) b
  | found {v w : Value} {q : Path} {b : Bytes} (h : l.find? v = some w) (hd : p.depth ≤ q.depth)
    (hb : Gives (recur q w) b) : Written l recur p v b
  /-- The fields of an application value are written at its own place in the path. -/
  | fields {v : Value} {ms : Members} {q : Path} {b : Bytes} (h : l.find? v = some (.object ms))
    (hd : p.depth ≤ q.depth) (hb : Gives (l.encoder.objectText recur q ms) b) :
    Written l recur p v b

variable {l : Lookup} {recur : Path → Value → TextM Unit Bytes} {p q : Path} {v w : Value}
  {b : Bytes}

theorem gives_deeperText (h : Gives (deeperText recur p v) b) : Gives (recur p.deeper v) b := by
  rw [deeperText] at h
  split at h
  · exact h
  · simp at h

theorem gives_openingText {i : Identity} {inside : Path → TextM Unit Bytes}
    (h : Gives (openingText p i inside) b) : Gives (inside (p.opening i)) b := by
  rw [openingText] at h
  split at h
  · simp at h
  · exact h

/-- An answer of the hook is written in place of the value. -/
theorem exists_of_gives_replacedText (h : Gives (l.encoder.replacedText recur p v) b) :
    ∃ w, l.offered? v = some w ∧ Gives (recur p.hooked w) b := by
  rw [replacedText] at h
  cases hf : l.hook with
  | none =>
    simp only [encoder, hf, Option.map_none, refuse_iff] at h
  | some f =>
    simp only [encoder, hf, Option.map_some] at h
    split at h
    · simp at h
    · obtain ⟨answer, ha, h⟩ := bind_iff.1 h
      rw [ask_iff] at ha
      subst ha
      cases hw : f v with
      | none => simp [hw] at h
      | some w =>
        rw [hw] at h
        exact ⟨w, by rw [offered?, hf, Option.bind_some, hw], h⟩

theorem written_temporal {text : Except EncodeError Bytes}
    (hleaf : l.isLeaf v = !l.options.passthroughDatetime)
    (hfind : l.options.passthroughDatetime = true → l.find? v = l.offered? v)
    (htext : l.encoder.textWith recur p v = l.encoder.temporalText recur p v text)
    (h : Gives (l.encoder.textWith recur p v) b) : l.Written recur p v b := by
  cases hp : l.options.passthroughDatetime with
  | false => exact .leaf (by rw [hleaf, hp]; rfl) h
  | true =>
    have hp' : l.encoder.options.passthroughDatetime = true := hp
    rw [htext, temporalText, if_pos hp'] at h
    obtain ⟨w, hw, hb⟩ := exists_of_gives_replacedText h
    exact .found (q := p.hooked) ((hfind hp).trans hw) (Nat.le_refl _) hb

theorem written_foreign {id : ForeignId} {name : String} (hd : p.depth ≤ q.depth)
    (h : Gives (l.encoder.expandedText recur q id name) b) :
    l.Written recur p (.foreign id name) b := by
  rw [expandedText] at h
  split at h
  · next value hv =>
    have hv : l.graph.enumValue id = some value := hv
    have hfind : l.find? (.foreign id name) = some value := by rw [find?, hv]
    exact .found hfind (Nat.le_succ_of_le hd) (gives_deeperText h)
  · next hv =>
    have hv : l.graph.enumValue id = none := hv
    split at h
    · next fields hf =>
      have hf : (if l.options.passthroughDataclass then none else l.graph.fields id) =
        some fields := hf
      have hfind : l.find? (.foreign id name) = some (.object fields) := by rw [find?, hv, hf]
      exact .fields hfind hd h
    · next hf =>
      have hf : (if l.options.passthroughDataclass then none else l.graph.fields id) = none := hf
      have hfind : l.find? (.foreign id name) = l.offered? (.foreign id name) := by
        rw [find?, hv, hf]
      obtain ⟨w, hw, hb⟩ := exists_of_gives_replacedText h
      exact .found (q := q.hooked) (hfind.trans hw) hd hb

/-- **Every text comes about in one of these ways.** -/
theorem written_of_gives (h : Gives (l.encoder.textWith recur p v) b) : l.Written recur p v b := by
  cases v with
  | array vs => exact .array h
  | object ms => exact .object h
  | shared node =>
    have hopen : Gives (openingText p (.node node)
      fun p => deeperText recur p (l.graph.content node)) b := h
    exact .found rfl (Nat.le_succ _) (gives_deeperText (gives_openingText hopen))
  | foreign id name =>
    have hopen : Gives (openingText p (.foreign id)
      fun p => l.encoder.expandedText recur p id name) b := h
    exact written_foreign (q := p.opening (.foreign id)) (Nat.le_refl _) (gives_openingText hopen)
  | dateTime t => exact written_temporal rfl (fun hp => if_pos hp) rfl h
  | date d => exact written_temporal rfl (fun hp => if_pos hp) rfl h
  | time t => exact written_temporal rfl (fun hp => if_pos hp) rfl h
  | _ => exact .leaf rfl h

end JsonCodec.Lookup
