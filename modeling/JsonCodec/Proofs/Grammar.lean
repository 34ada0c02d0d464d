/-
The grammar of documents, and the value that a document denotes.

A document is `blanks value blanks`. The grammar derives exact byte strings, so it says nothing of
how far a reader looks. Where it says less than one wants of a member list or a number, the value
says the rest: of a repeated key the last value counts (`Members.merge`), and a literal with a
fraction or an exponent denotes the nearest finite number.

`levels` is how many brackets may stand inside one another. `size` tells how the digits of an
exponent are read; read as a decimal number, they give the literal its arithmetical value.
-/
import JsonCodec.Proofs.Binary64.Nearest
import JsonCodec.Proofs.Members
import JsonCodec.BigInt
import JsonCodec.Utf8

namespace JsonCodec.Grammar

open Ascii

/-- A run of spaces, tabs, line feeds and carriage returns. -/
def Blanks (bytes : Bytes) : Prop := ∀ b ∈ bytes, isBlank b = true

/-- One digit or more. -/
def IsDigits (bytes : Bytes) : Prop := bytes ≠ [] ∧ ∀ b ∈ bytes, isDigit b = true

/-- Where there is no fraction, nothing is to be shown of its digits. -/
theorem isDigits_of_mem_none : ∀ digits ∈ (none : Option Bytes), IsDigits digits :=
  fun digits h => absurd h (Option.not_mem_none digits)

/-! ## Numbers -/

/-- `[eE][+-]?[0-9]+` -/
structure Exponent where
  letter : UInt8
  sign : Option UInt8
  digits : Bytes
  letter_mem : letter = letterE ∨ letter = capitalE
  sign_mem : sign = none ∨ sign = some plus ∨ sign = some minus
  digits_ok : IsDigits digits

/-- `-?(0|[1-9][0-9]*)(\.[0-9]+)?` and an exponent, if there is one. -/
structure Number where
  negative : Bool
  whole : Bytes
  fraction : Option Bytes
  exponent : Option Exponent
  whole_ok : Digits.isCanonical whole = true
  fraction_ok : ∀ digits ∈ fraction, IsDigits digits

namespace Exponent

/-- Digits behind a small `e`, and a minus if there is to be one. -/
def ofDigits (negative : Bool) (digits : Bytes) (h : IsDigits digits) : Exponent where
  letter := letterE
  sign := if negative then some minus else none
  digits := digits
  letter_mem := .inl rfl
  sign_mem := by cases negative <;> simp
  digits_ok := h

def bytes (x : Exponent) : Bytes := x.letter :: (x.sign.toList ++ x.digits)

/-- The exponent, given what its digits come to. -/
def value (size : Bytes → Nat) (x : Exponent) : Int :=
  if x.sign = some minus then -(size x.digits : Int) else size x.digits

end Exponent

namespace Number

/-- The literal. -/
def bytes (n : Number) : Bytes :=
  (if n.negative then [minus] else []) ++ n.whole ++
    ((n.fraction.map (point :: ·)).getD [] ++ (n.exponent.map Exponent.bytes).getD [])

/-- Whether there is neither a fraction nor an exponent. -/
def isInteger (n : Number) : Bool := n.fraction.isNone && n.exponent.isNone

/-- The integer that the digits before the point spell. -/
def integer (n : Number) : Int :=
  if n.negative then -(Digits.value n.whole : Int) else Digits.value n.whole

/-- The number without its sign. -/
def size (size : Bytes → Nat) (n : Number) : ℚ :=
  Digits.value (n.whole ++ n.fraction.getD []) *
    10 ^ ((n.exponent.map (·.value size)).getD 0 - (n.fraction.getD []).length : Int)

/-- The value of a literal. An integer is kept whole; any other number is rounded to the nearest,
and one that rounds to infinity has no value. -/
inductive Denotes (size : Bytes → Nat) (n : Number) : Value → Prop
  | int {k : Int64} (h : n.isInteger = true) (hk : k.toInt = n.integer) : Denotes size n (.int k)
  | bigInt {k : BigInt} (h : n.isInteger = true) (out : fitsInt64 n.integer = false)
    (hk : k.text = n.bytes) : Denotes size n (.bigInt k)
  | float {x : Binary64} (h : n.isInteger = false) (hs : x.isNegative = n.negative)
    (near : Binary64.IsNearest (n.size size) x.magnitude) (fin : x.isFinite = true) :
    Denotes size n (.float x)

end Number

/-! ## Text -/

/-- Four hexadecimal digits and the number that they spell. -/
inductive CodeUnit : Bytes → Nat → Prop
  | mk {a b c d : UInt8} {i j k l : Nat} (ha : hexValue? a = some i) (hb : hexValue? b = some j)
    (hc : hexValue? c = some k) (hd : hexValue? d = some l) :
    CodeUnit [a, b, c, d] (((i * 16 + j) * 16 + k) * 16 + l)

/-- The letters that stand for a character behind a backslash. -/
def shortEscapes : List (UInt8 × Char) :=
  [(quote, '"'), (backslash, '\\'), (slash, '/'), (letterB, '\x08'), (letterF, '\x0c'),
    (letterN, '\n'), (letterR, '\r'), (letterT, '\t')]

/-- What stands behind a backslash, and the character that it denotes. -/
inductive Escaped : Bytes → Char → Prop
  | short {letter : UInt8} {c : Char} (h : (letter, c) ∈ shortEscapes) : Escaped [letter] c
  /-- A unit that is no surrogate is a character. -/
  | unit {digits : Bytes} {n : Nat} (h : CodeUnit digits n) (hs : ¬(0xD800 ≤ n ∧ n ≤ 0xDFFF)) :
    Escaped (letterU :: digits) (Char.ofNat n)
  /-- A high surrogate and the low one behind it are a character. -/
  | pair {high low : Bytes} {m n : Nat} (hh : CodeUnit high m) (hm : 0xD800 ≤ m ∧ m ≤ 0xDBFF)
    (hl : CodeUnit low n) (hn : 0xDC00 ≤ n ∧ n ≤ 0xDFFF) :
    Escaped (letterU :: (high ++ backslash :: letterU :: low))
      (Char.ofNat (0x10000 + (m - 0xD800) * 0x400 + (n - 0xDC00)))

/-- The characters that stand for themselves: no control character, quote or backslash. -/
def IsPlain (c : Char) : Prop := 0x20 ≤ c.toNat ∧ c ≠ '"' ∧ c ≠ '\\'

/-- What stands between the quotes of a string, and the characters that it denotes. -/
inductive Chars : Bytes → List Char → Prop
  | nil : Chars [] []
  /-- A character in UTF-8. -/
  | plain {c : Char} {bytes : Bytes} {chars : List Char} (h : IsPlain c) (rest : Chars bytes chars) :
    Chars (String.utf8EncodeChar c ++ bytes) (c :: chars)
  | escape {sequence bytes : Bytes} {c : Char} {chars : List Char} (h : Escaped sequence c)
    (rest : Chars bytes chars) : Chars (backslash :: (sequence ++ bytes)) (c :: chars)

/-- A string literal, and the text that it denotes. -/
inductive Text : Bytes → String → Prop
  | mk {inside : Bytes} {chars : List Char} (h : Chars inside chars) :
    Text (quote :: (inside ++ [quote])) (String.ofList chars)

/-- A key between blanks. -/
inductive Key : Bytes → String → Prop
  | mk {before literal after : Bytes} {name : String} (hb : Blanks before) (h : Text literal name)
    (ha : Blanks after) : Key (before ++ literal ++ after) name

/-! ## Values -/

/-- The value of an object with these members in order: a repeated key keeps its first place and
takes the last value. -/
def objectOf (members : List (String × Value)) : Value :=
  .object (Members.ofText (Members.merge members))

mutual

/-- A value without the blanks around it. -/
inductive Denotes (size : Bytes → Nat) : (levels : Nat) → Bytes → Value → Prop
  | null {n : Nat} : Denotes size n (Utf8.encode "null") .null
  | true {n : Nat} : Denotes size n (Utf8.encode "true") (.bool true)
  | false {n : Nat} : Denotes size n (Utf8.encode "false") (.bool false)
  | number {n : Nat} {v : Value} (literal : Number) (h : literal.Denotes size v) :
    Denotes size n literal.bytes v
  | text {n : Nat} {literal : Bytes} {text : String} (h : Text literal text) :
    Denotes size n literal (.str text)
  | emptyArray {n : Nat} {blanks : Bytes} (h : Blanks blanks) :
    Denotes size (n + 1) (bracketOpen :: (blanks ++ [bracketClose])) (.array [])
  | array {n : Nat} {inside : Bytes} {vs : List Value} (h : Items size n inside vs) :
    Denotes size (n + 1) (bracketOpen :: (inside ++ [bracketClose])) (.array vs)
  | emptyObject {n : Nat} {blanks : Bytes} (h : Blanks blanks) :
    Denotes size (n + 1) (braceOpen :: (blanks ++ [braceClose])) (.object [])
  | object {n : Nat} {inside : Bytes} {ms : List (String × Value)} (h : Fields size n inside ms) :
    Denotes size (n + 1) (braceOpen :: (inside ++ [braceClose])) (objectOf ms)

/-- A value between blanks: what a whole document is. -/
inductive Spaced (size : Bytes → Nat) : (levels : Nat) → Bytes → Value → Prop
  | mk {n : Nat} {before bytes after : Bytes} {v : Value} (hb : Blanks before)
    (h : Denotes size n bytes v) (ha : Blanks after) : Spaced size n (before ++ bytes ++ after) v

/-- One item or more, with a comma between two. -/
inductive Items (size : Bytes → Nat) : (levels : Nat) → Bytes → List Value → Prop
  | one {n : Nat} {bytes : Bytes} {v : Value} (h : Spaced size n bytes v) : Items size n bytes [v]
  | more {n : Nat} {bytes rest : Bytes} {v : Value} {vs : List Value} (h : Spaced size n bytes v)
    (hr : Items size n rest vs) : Items size n (bytes ++ comma :: rest) (v :: vs)

/-- One member or more, with a comma between two. -/
inductive Fields (size : Bytes → Nat) : (levels : Nat) → Bytes → List (String × Value) → Prop
  | one {n : Nat} {key bytes : Bytes} {name : String} {v : Value} (hk : Key key name)
    (h : Spaced size n bytes v) : Fields size n (key ++ colon :: bytes) [(name, v)]
  | more {n : Nat} {key bytes rest : Bytes} {name : String} {v : Value} {ms : List (String × Value)}
    (hk : Key key name) (h : Spaced size n bytes v) (hr : Fields size n rest ms) :
    Fields size n (key ++ colon :: (bytes ++ comma :: rest)) ((name, v) :: ms)

end

/-- Around a value there may be no blanks. -/
theorem Spaced.of_denotes {size : Bytes → Nat} {n : Nat} {bytes : Bytes} {v : Value}
    (h : Denotes size n bytes v) : Spaced size n bytes v := by
  have hspaced := Spaced.mk (List.forall_mem_nil _) h (List.forall_mem_nil _)
  rwa [List.nil_append, List.append_nil] at hspaced

end JsonCodec.Grammar
