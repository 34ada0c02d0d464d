/-
What encodings leave in a buffer that is given to them: behind what was there before, the documents
of those values that have one, in order (`encodeInto_eq_encode`). What was there before has no part
in that.
-/
import JsonCodec.Proofs.Encoder.Session

namespace JsonCodec.Encoder

variable (e : Encoder Unit)

/-- The document of a value is its text. -/
theorem encode_eq_text (v : Value) :
    e.encode v =
      match e.text budget {} v () with
      | .ok b _ => .ok (document e.options b)
      | .error stop _ => .error stop.error := by
  rw [encode, encodeInto_eq_text]
  cases e.text budget {} v () with
  | ok b h => simp
  | error stop h => rfl

/-- What an encoding does to a buffer is known from the encoding alone. -/
theorem encodeInto_of_encode (out : Array UInt8) (v : Value) :
    e.encodeInto v out () =
      match e.encode v with
      | .ok b => ⟨none, out ++ b, ()⟩
      | .error x => ⟨some x, out, ()⟩ := by
  rw [encode_eq_text, encodeInto_eq_text]
  cases e.text budget {} v () <;> rfl

/-- The buffer after values have been encoded into it one after the other. -/
def encodeEach (out : Array UInt8) (vs : List Value) : Array UInt8 :=
  vs.foldl (fun out v => (e.encodeInto v out ()).out) out

/-- Values in turn leave the documents of those that have one. -/
theorem encodeEach_eq (out : Array UInt8) (vs : List Value) :
    e.encodeEach out vs = out ++ (vs.filterMap fun v => (e.encode v).toOption).flatten := by
  induction vs generalizing out with
  | nil => simp [encodeEach]
  | cons v vs ih =>
    rw [encodeEach, List.foldl_cons, ← encodeEach, ih, encodeInto_of_encode, List.filterMap_cons]
    cases e.encode v with
    | ok b => exact (Emits.append_append out b _).symm
    | error x => rfl

/-- **Encoding into a buffer has the outcome of encoding alone. It appends the document if there is
one, and else leaves the buffer as it was; so values in turn leave the documents of those that have
one.** -/
theorem encodeInto_eq_encode (out : Array UInt8) :
    (∀ v, e.encodeInto v out () =
      match e.encode v with
      | .ok b => ⟨none, out ++ b, ()⟩
      | .error x => ⟨some x, out, ()⟩) ∧
    ∀ vs, e.encodeEach out vs = out ++ (vs.filterMap fun v => (e.encode v).toOption).flatten :=
  ⟨e.encodeInto_of_encode out, e.encodeEach_eq out⟩

end JsonCodec.Encoder
