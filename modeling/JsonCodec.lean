import JsonCodec.Codec
import JsonCodec.People
import JsonCodec.PlainTree
import JsonCodec.Proofs.Binary64.Nearest
import JsonCodec.Proofs.Utf8
import JsonCodec.Proofs.Binary64.Rounding
import JsonCodec.Proofs.Binary64.Reading
import JsonCodec.Proofs.Binary64.Shortest
import JsonCodec.Proofs.Digits
import JsonCodec.Proofs.Document.Cursor
import JsonCodec.Proofs.Grammar
import JsonCodec.Proofs.Document.Number
import JsonCodec.Proofs.Document.Escape
import JsonCodec.Proofs.Document.Text
import JsonCodec.Proofs.Document.Collector
import JsonCodec.Proofs.Document.Reading
import JsonCodec.Proofs.Document.Acceptance
import JsonCodec.Proofs.Encoder.Rendering
import JsonCodec.Proofs.Encoder.Session
import JsonCodec.Proofs.Encoder.Buffer
import JsonCodec.Proofs.Binary64.Text
import JsonCodec.Proofs.PlainBytes
import JsonCodec.Proofs.Escapes
import JsonCodec.Proofs.EscapedText
import JsonCodec.Proofs.Lines
import JsonCodec.Proofs.Encoder.Tokens
import JsonCodec.Proofs.Encoder.Success
import JsonCodec.Proofs.Encoder.Forms
import JsonCodec.Proofs.Encoder.Turns
import JsonCodec.Proofs.Encoder.Calls
import JsonCodec.Proofs.Encoder.Cycles
import JsonCodec.Proofs.Encoder.Lexemes
import JsonCodec.Proofs.Encoder.Lines
import JsonCodec.Proofs.Encoder.Unfolding
import JsonCodec.Proofs.Encoder.Written
import JsonCodec.Proofs.Encoder.TreeWriting
import JsonCodec.Proofs.Encoder.Layout
import JsonCodec.Proofs.Encoder.Meaning
import JsonCodec.Proofs.Native
import JsonCodec.Proofs.RoundTrip
import JsonCodec.Proofs.Image
import JsonCodec.Proofs.Encoder.Indentation
import JsonCodec.Proofs.Stability
import JsonCodec.Proofs.Canonical
import JsonCodec.Proofs.Encoder.Descent
import JsonCodec.Proofs.Encoder.Record
import JsonCodec.Proofs.Document.Faults
import JsonCodec.Proofs.Document.Unfinished
import JsonCodec.Proofs.Nesting
import JsonCodec.Proofs.Document.Depth
import JsonCodec.Proofs.Document.CutLiterals
import JsonCodec.Proofs.Document.Truncation
import JsonCodec.Proofs.Masks
import JsonCodec.Proofs.Encoder.OtherOptions
import JsonCodec.Proofs.Encoder.Permissive
import JsonCodec.Proofs.Encoder.Alike
import JsonCodec.Proofs.Blanks
import JsonCodec.Proofs.Encoder.Compact
import JsonCodec.Proofs.Encoder.Ascii
import JsonCodec.Proofs.Document.LeftToRight
import JsonCodec.Proofs.Characters
import JsonCodec.Proofs.Document.FaultPlaces
import JsonCodec.Proofs.Document.Located
import JsonCodec.Proofs.Document.StrayBytes
import JsonCodec.Proofs.Encoder.Sorting
import JsonCodec.Proofs.Equality
import JsonCodec.Proofs.History
import JsonCodec.Proofs.Encoder.Keys
import JsonCodec.Proofs.Encoder.Fragments
import JsonCodec.Proofs.Encoder.Course
import JsonCodec.Proofs.Encoder.Guards
import JsonCodec.Proofs.Encoder.Logged
import JsonCodec.Proofs.IntegerForms
import JsonCodec.Proofs.Padding
import JsonCodec.Proofs.Temporal.Layout
import JsonCodec.Proofs.Temporal.Reading
import JsonCodec.Proofs.PlainTree
