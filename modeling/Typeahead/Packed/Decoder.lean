/-! # Decoders of packed bytes

A decoder reads a value from the front of a list of bytes and leaves the rest.  Decoders read
strictly from left to right, so the first damage they meet is the one they report. -/

namespace Typeahead

/-- What can be wrong with packed bytes. -/
inductive Damage where
  /-- The bytes end too early. -/
  | endOfBytes
  /-- A number has too many bytes or is too large. -/
  | longNumber
  /-- A text is not UTF-8. -/
  | notUtf8
  /-- The byte that says whether an optional value is there is neither zero nor one. -/
  | badOption
  /-- A tag names no case. -/
  | unknownTag
  deriving DecidableEq, Repr

/-- The sentence that reports the damage. -/
def Damage.message : Damage → String
  | .endOfBytes => "Hit the end of buffer, expected more data"
  | .longNumber => "Found a varint that didn't terminate. Is the usize too big for this platform?"
  | .notUtf8 => "Tried to parse invalid utf-8"
  | .badOption => "Found an Option discriminant that wasn't 0 or 1"
  | .unknownTag => "Serde Deserialization Error"

/-- A reader of values from the front of a list of bytes. -/
abbrev Decoder (α : Type) := StateT (List UInt8) (Except Damage) α

namespace Decoder

variable {α : Type}

/-- The value at the front of the bytes; what follows it is ignored. -/
def value (d : Decoder α) (bytes : List UInt8) : Except Damage α := Prod.fst <$> d.run bytes

/-- Reads one byte. -/
def byte : Decoder UInt8
  | [] => .error .endOfBytes
  | b :: rest => .ok (b, rest)

/-- Reads the given number of bytes. -/
def take (n : Nat) : Decoder (List UInt8) := fun bytes =>
  if (bytes.take n).length < n then .error .endOfBytes else .ok (bytes.take n, bytes.drop n)

/-- Reads the given number of values. -/
def times (item : Decoder α) : Nat → Decoder (List α)
  | 0 => return []
  | n + 1 => do
    let a ← item
    return a :: (← times item n)

end Decoder

end Typeahead
