/-
What is wrong with a document, and where.

A `Fault` is a cause at a byte offset. A `Diagnostic` is what a reader of the document is shown:
the wording, the line and column, and the line itself with a caret below the place.
-/
import JsonCodec.Bytes
import JsonCodec.Utf8

namespace JsonCodec

inductive Reason where
  | emptyDocument
  | inputTooLarge
  | trailingCharacters
  | unexpectedEnd
  | invalidUtf8
  | expectedValue
  /-- After an item: a comma or the closing bracket. -/
  | expectedItemEnd
  | expectedKey
  | expectedColon
  /-- After a member: a comma or the closing brace. -/
  | expectedMemberEnd
  | recursionLimit
  | invalidNumber
  | numberOutOfRange
  | unterminatedString
  | controlCharacter
  | invalidEscape
  | unpairedSurrogate
  /-- A reason in the words of whoever reads. -/
  | stated (text : String)
deriving DecidableEq

namespace Reason

def message : Reason → String
  | emptyDocument => "empty document"
  | inputTooLarge => "input too large"
  | trailingCharacters => "trailing characters"
  | unexpectedEnd => "unexpected end of input"
  | invalidUtf8 => "invalid UTF-8"
  | expectedValue => "expected value"
  | expectedItemEnd => "expected ',' or ']'"
  | expectedKey => "expected string key"
  | expectedColon => "expected ':'"
  | expectedMemberEnd => "expected ',' or '\x7d'"
  | recursionLimit => "recursion limit exceeded"
  | invalidNumber => "invalid number"
  | numberOutOfRange => "number out of range"
  | unterminatedString => "unterminated string"
  | controlCharacter => "control character in string"
  | invalidEscape => "invalid escape"
  | unpairedSurrogate => "unpaired surrogate"
  | stated text => text

end Reason

/-- A cause at a byte offset. -/
structure Fault where
  reason : Reason
  position : Nat
deriving DecidableEq

/-- A message about a place in a document. The place may lie past the end. -/
structure Diagnostic where
  message : String
  document : Bytes
  position : Nat
deriving DecidableEq

/-- A fault as it is shown. -/
def Fault.inDocument (fault : Fault) (document : Bytes) : Diagnostic :=
  ⟨fault.reason.message, document, fault.position⟩

namespace Diagnostic

/-- The document before the place. -/
def before (d : Diagnostic) : Bytes := d.document.take d.position

/-- The document from the place on. -/
def after (d : Diagnostic) : Bytes := d.document.drop d.position

/-- The line number, from one. -/
def line (d : Diagnostic) : Nat := 1 + d.before.countP (· == Ascii.lineFeed)

/-- The bytes of the line before the place. -/
def lineBefore (d : Diagnostic) : Bytes :=
  (d.before.reverse.takeWhile (· != Ascii.lineFeed)).reverse

/-- How many characters bytes hold: every byte counts that goes on with none. -/
def characters (bytes : Bytes) : Nat := bytes.countP fun b => b &&& 0xC0 != 0x80

/-- The column, counted in characters from one. -/
def column (d : Diagnostic) : Nat := 1 + characters d.lineBefore

/-- The whole line, without the line feed. -/
def lineBytes (d : Diagnostic) : Bytes :=
  d.lineBefore ++ d.after.takeWhile (· != Ascii.lineFeed)

/-- A text without the carriage returns at its end. -/
def trimReturns (text : String) : String :=
  String.ofList (text.toList.reverse.dropWhile (· == '\r')).reverse

/-- The line, and a caret below the place. -/
def snippet (d : Diagnostic) : String :=
  trimReturns (Utf8.decodeLossy d.lineBytes) ++ "\n" ++
    String.ofList (List.replicate (d.column - 1) ' ') ++ "^"

/-- The message with line, column and offset. -/
def display (d : Diagnostic) : String :=
  d.message ++ ": line " ++ toString d.line ++ " column " ++ toString d.column ++
    " (char " ++ toString d.position ++ ")"

end Diagnostic

end JsonCodec
