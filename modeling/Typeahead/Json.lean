import Typeahead.Table

/-! # JSON values

An object is a list of fields.  Readers look a field up by its key, so that the order of the fields
shows only where a reader has to name one of several.  An object that is read from text has its
fields in the order of their keys, the last of equal keys winning. -/

namespace Typeahead

/-- A JSON value.  A number is kept as it was written. -/
inductive Json where
  | null
  | boolean (value : Bool)
  | number (literal : String)
  | text (value : String)
  | array (items : List Json)
  | object (fields : List (String × Json))
  deriving Inhabited

namespace Json

/-- The six kinds of JSON values. -/
inductive Kind where
  | null | boolean | number | text | array | object
  deriving DecidableEq, Repr

/-- The kind in words, with its article. -/
def Kind.phrase : Kind → String
  | .null => "null"
  | .boolean => "a boolean"
  | .number => "a number"
  | .text => "a string"
  | .array => "an array"
  | .object => "an object"

/-- The kind of a value. -/
def kind : Json → Kind
  | .null => .null
  | .boolean _ => .boolean
  | .number _ => .number
  | .text _ => .text
  | .array _ => .array
  | .object _ => .object

/-- The array of the given texts. -/
def ofTexts (texts : List String) : Json := .array (texts.map .text)

/-- The number that stands for a natural number. -/
def ofNat (n : Nat) : Json := .number (toString n)

/-- The text that a value is. -/
def text? : Json → Option String
  | .text value => some value
  | _ => none

/-- The natural number written by a run of decimal digits. -/
def natOfDigits (digits : List Char) : Nat :=
  digits.foldl (fun n c => 10 * n + (c.toNat - '0'.toNat)) 0

/-- The natural number below 2^64 that is written by decimal digits alone. -/
def wordOfDigits? (digits : List Char) : Option Nat :=
  if digits ≠ [] ∧ digits.all Char.isDigit ∧ natOfDigits digits < UInt64.size then
    some (natOfDigits digits)
  else none

/-- The natural number below 2^64 that a value is, written without a sign, point or exponent. -/
def word? : Json → Option Nat
  | .number literal => wordOfDigits? literal.toList
  | _ => none

end Json

end Typeahead
