/-
The forms in which values are written (`Encoder.Form`). A value has a text of its own, or items, or
members, or one value that stands for it a level deeper, or what the hook offers for it; a handle
is opened around that. Statements on what is written go by cases on these five (`textWith_eq_form`).
-/
import JsonCodec.Proofs.Encoder.Rendering

namespace JsonCodec

open Ascii

/-- What is opened around a value while it is written. -/
def Value.handle? : Value → Option Identity
  | .shared node => some (.node node)
  | .foreign id _ => some (.foreign id)
  | _ => none

/-- The path inside a value. -/
def Path.into (p : Path) (v : Value) : Path :=
  match v.handle? with
  | some i => p.opening i
  | none => p

/-- How a value is written. -/
inductive Form where
  /-- By a text of its own. -/
  | leaf
  | items (vs : List Value)
  | members (ms : Members)
  /-- By another value, a level deeper. -/
  | level (w : Value)
  /-- By what the hook offers. -/
  | asked

/-- Bytes between quotes. -/
def quoted (b : Bytes) : Bytes := quote :: (b ++ [quote])

/-- The text of a leaf. -/
def Value.leafText (o : Options) : Value → Except EncodeError Bytes
  | .null => .ok (Utf8.encode "null")
  | .bool true => .ok (Utf8.encode "true")
  | .bool false => .ok (Utf8.encode "false")
  | .int n => Scalar.int o n
  | .bigInt n => Scalar.bigInt o n
  | .float x => Scalar.float o x
  | .str text => .ok (Quoted.literal o.asciiOnly text)
  | .dateTime t => (t.text o).map quoted
  | .date d => .ok (quoted d.text)
  | .time t => .ok (quoted (t.text o))
  | .uuid id => .ok (quoted id.text)
  | .fragment raw => .ok raw
  | .array _ | .object _ | .shared _ | .foreign _ _ => .ok []

namespace Encoder

open TextM

variable {σ : Type} (e : Encoder σ)

/-- The fields of an application value, where these are written. -/
def fields? (id : ForeignId) : Option Members :=
  if e.options.passthroughDataclass then none else e.graph.fields id

def form : Value → Form
  | .array vs => .items vs
  | .object ms => .members ms
  | .shared node => .level (e.graph.content node)
  | .foreign id _ =>
    match e.graph.enumValue id with
    | some w => .level w
    | none =>
      match e.fields? id with
      | some ms => .members ms
      | none => .asked
  | .dateTime _ | .date _ | .time _ => if e.options.passthroughDatetime then .asked else .leaf
  | _ => .leaf

/-- The text inside a value, where its handle is open. -/
def formText (recur : Path → Value → TextM σ Bytes) (p : Path) (v : Value) : TextM σ Bytes :=
  match e.form v with
  | .leaf => lift (v.leafText e.options)
  | .items vs => e.arrayText recur p vs
  | .members ms => e.objectText recur p ms
  | .level w => deeperText recur p w
  | .asked => e.replacedText recur p v

/-- A handle that is open already is refused. -/
def openedText (p : Path) (v : Value) (inside : Path → TextM σ Bytes) : TextM σ Bytes :=
  match v.handle? with
  | some i => openingText p i inside
  | none => inside p

variable {e} {recur : Path → Value → TextM σ Bytes} {p : Path} {v : Value}

theorem temporalText_eq_formText {x : Except EncodeError Bytes}
    (hx : v.leafText e.options = x.map quoted)
    (hf : e.form v = if e.options.passthroughDatetime then .asked else .leaf) :
    e.temporalText recur p v x = e.formText recur p v := by
  rw [temporalText, formText, hf, hx]
  split
  · rfl
  · cases x <;> rfl

theorem expandedText_eq_formText (id : ForeignId) (name : String) :
    e.expandedText recur p id name = e.formText recur p (.foreign id name) := by
  rw [expandedText, formText, form]
  cases e.graph.enumValue id with
  | some w => rfl
  | none =>
    simp only
    rw [fields?]
    cases (if e.options.passthroughDataclass then none else e.graph.fields id) <;> rfl

/-- **A value is written in its form, with its handle open around it.** -/
theorem textWith_eq_form :
    e.textWith recur p v = openedText p v fun p => e.formText recur p v := by
  cases v with
  | bool b => cases b <;> rfl
  | dateTime t => exact temporalText_eq_formText rfl rfl
  | date d => exact temporalText_eq_formText rfl rfl
  | time t => exact temporalText_eq_formText rfl rfl
  | foreign id name =>
    simp only [textWith, openedText, Value.handle?, expandedText_eq_formText]
  | _ => rfl

theorem text_succ (budget : Nat) :
    e.text (budget + 1) p v = openedText p v fun p => e.formText (e.text budget) p v :=
  textWith_eq_form

/-! ## In a session -/

/-- Opens the handle of a value around what is done. -/
def withHandle (v : Value) (inside : WriteM σ Unit) : WriteM σ Unit :=
  match v.handle? with
  | some i => do
    WriteM.openHandle i
    inside
    WriteM.closeHandle i
  | none => inside

/-- Writes what is inside a value, given how to write the values inside it. -/
def formWrite (e : Encoder σ) (recur : Value → WriteM σ Unit) (v : Value) : WriteM σ Unit :=
  match e.form v with
  | .leaf => do WriteM.append (← WriteM.lift (v.leafText e.options))
  | .items vs => e.array recur vs
  | .members ms => e.object recur ms
  | .level w => do
    WriteM.enterLevel
    recur w
    WriteM.exitLevel
  | .asked => e.replaced recur v

section Session

variable {recur : Value → WriteM σ Unit}

theorem appendQuoted_eq (b : Bytes) :
    (WriteM.appendQuoted b : WriteM σ Unit) = WriteM.append (quoted b) := by
  have hout (out : Array UInt8) : (out.push quote ++ b).push quote = out ++ quoted b := by
    simp [← Array.toList_inj, quoted]
  have hrun : (WriteM.appendQuoted b : WriteM σ Unit) =
      modify fun s => { s with out := (s.out.push quote ++ b).push quote } := rfl
  simp only [hrun, hout]
  rfl

theorem temporal_eq_formWrite {x : Except EncodeError Bytes}
    (hx : v.leafText e.options = x.map quoted)
    (hf : e.form v = if e.options.passthroughDatetime then .asked else .leaf) :
    (if e.options.passthroughDatetime then e.replaced recur v
      else WriteM.lift x >>= fun b => WriteM.appendQuoted b) = e.formWrite recur v := by
  rw [formWrite, hf, hx]
  split
  · rfl
  · simp only [appendQuoted_eq]
    cases x <;> rfl

theorem expanded_eq_formWrite (id : ForeignId) (name : String) :
    e.expanded recur id name = e.formWrite recur (.foreign id name) := by
  rw [expanded, formWrite, form]
  cases e.graph.enumValue id with
  | some w => rfl
  | none =>
    simp only
    rw [fields?]
    cases (if e.options.passthroughDataclass then none else e.graph.fields id) <;> rfl

/-- **A session writes a value in its form, with its handle open around it.** -/
theorem dispatch_eq_form : e.dispatch recur v = withHandle v (e.formWrite recur v) := by
  cases v with
  | bool b => cases b <;> rfl
  | str text =>
    simp only [dispatch, Quoted.append_eq]
    rfl
  | dateTime t => exact temporal_eq_formWrite rfl rfl
  | date d => exact temporal_eq_formWrite (x := .ok d.text) rfl rfl
  | time t => exact temporal_eq_formWrite (x := .ok (t.text e.options)) rfl rfl
  | uuid id => exact appendQuoted_eq id.text
  | shared node => simp only [dispatch, shared, withHandle, Value.handle?, formWrite, form, bind_assoc]
  | foreign id name => simp only [dispatch, foreign, withHandle, Value.handle?, expanded_eq_formWrite]
  | _ => rfl

end Session

end Encoder

end JsonCodec
