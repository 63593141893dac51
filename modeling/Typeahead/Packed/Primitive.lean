import Typeahead.Packed.Decoder
import Typeahead.Table

/-! # Numbers, texts, sequences and tables as bytes

A natural number is written in groups of seven bits, the lowest first, with the high bit set on all
bytes but the last.  The reader accepts superfluous groups of zeros but bounds the number of groups
and the last one.  Everything of variable length is preceded by its length: a text by the number of
its bytes, a sequence by the number of its items, a table by the number of its entries. -/

namespace Typeahead.Packed

variable {α : Type}

/-! ### Writing -/

/-- The bytes of a number. -/
def number (n : Nat) : List UInt8 :=
  if n < 128 then [.ofNat n] else .ofNat (n % 128 + 128) :: number (n / 128)

/-- The bytes of a text. -/
def text (t : String) : List UInt8 :=
  let bytes := t.toUTF8.data.toList
  number bytes.length ++ bytes

/-- The bytes of a sequence. -/
def sequence (item : α → List UInt8) (items : List α) : List UInt8 :=
  number items.length ++ items.flatMap item

/-- The bytes of the entries of a table, in the order in which they are given. -/
def entries (value : α → List UInt8) (es : List (String × α)) : List UInt8 :=
  sequence (fun e => text e.1 ++ value e.2) es

/-- The bytes of a table. -/
def table (value : α → List UInt8) (t : Table α) : List UInt8 := entries value t.entries

/-! ### Reading -/

/-- Reads a number of at most `groups` groups, the last possible of which is at most `last`. -/
def readNumber (last : Nat) : (groups : Nat) → Decoder Nat
  | 0 => throw .longNumber
  | groups + 1 => do
    let b := (← Decoder.byte).toNat
    if b < 128 then
      if groups = 0 ∧ last < b then throw .longNumber else return b
    else
      return (b - 128) + 128 * (← readNumber last groups)

/-- Reads a number below 2^64. -/
def readLength : Decoder Nat := readNumber 1 10

/-- Reads the number of a case, which is below 2^32. -/
def readTag : Decoder Nat := readNumber 15 5

/-- Reads a text. -/
def readText : Decoder String := do
  let bytes ← Decoder.take (← readLength)
  match String.fromUTF8? ⟨bytes.toArray⟩ with
  | some t => return t
  | none => throw .notUtf8

/-- Reads a sequence. -/
def readSequence (item : Decoder α) : Decoder (List α) := do
  item.times (← readLength)

/-- Reads a table, in which of equal keys the last one stays. -/
def readTable (value : Decoder α) : Decoder (Table α) := do
  return .ofList (← readSequence do return (← readText, ← value))

end Typeahead.Packed
