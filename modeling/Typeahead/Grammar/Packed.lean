import Typeahead.Grammar
import Typeahead.Packed.Primitive

/-! # Grammars as bytes

Cases are told apart by a leading number.  A reference is followed by a byte that says whether it
has a continuation.  A nested node takes up at least two bytes before its first alternative, so the
number of bytes bounds the nesting: `unpackAlternative` reads alternatives of bounded depth, and at
depth zero no byte is left. -/

namespace Typeahead

namespace Node

mutual

/-- The bytes of an alternative. -/
def packAlternative : Alternative String → List UInt8
  | .literal text => Packed.number 0 ++ Packed.text text
  | .nested node => Packed.number 1 ++ (Packed.number node.length ++ packItems node)
  | .reference name next =>
    Packed.number 2 ++ (Packed.number 0 ++ (Packed.text name ++ packContinuation next))
  | .script text => Packed.number 2 ++ (Packed.number 1 ++ Packed.text text)

/-- The bytes of a continuation, which is optional. -/
def packContinuation : Continuation String → List UInt8
  | .nothing => [0]
  | .text text => 1 :: (Packed.number 0 ++ Packed.text text)
  | .node node => 1 :: (Packed.number 1 ++ (Packed.number node.length ++ packItems node))

/-- The bytes of a list of alternatives. -/
def packItems : List (Alternative String) → List UInt8
  | [] => []
  | a :: rest => packAlternative a ++ packItems rest

end

/-- The bytes of a node. -/
def pack (node : Node String) : List UInt8 := Packed.number node.length ++ packItems node

/-- Reads a continuation, given how to read a node. -/
def unpackContinuation (node : Decoder (Node String)) : Decoder (Continuation String) := do
  match ← Decoder.byte with
  | 0 => return .nothing
  | 1 =>
    match ← Packed.readTag with
    | 0 => return .text (← Packed.readText)
    | 1 => return .node (← node)
    | _ => throw .unknownTag
  | _ => throw .badOption

/-- Reads an alternative that nests nodes less than `depth` deep. -/
def unpackAlternative : (depth : Nat) → Decoder (Alternative String)
  | 0 => throw .endOfBytes
  | depth + 1 => do
    match ← Packed.readTag with
    | 0 => return .literal (← Packed.readText)
    | 1 => return .nested (← Packed.readSequence (unpackAlternative depth))
    | 2 =>
      match ← Packed.readTag with
      | 0 =>
        let name ← Packed.readText
        let next ← unpackContinuation (Packed.readSequence (unpackAlternative depth))
        return .reference name next
      | 1 => return .script (← Packed.readText)
      | _ => throw .unknownTag
    | _ => throw .unknownTag

/-- Reads a node. -/
def unpack : Decoder (Node String) := fun bytes =>
  Packed.readSequence (unpackAlternative bytes.length) bytes

end Node

namespace Grammar

/-- The bytes of a grammar. -/
def pack (g : Grammar String) : List UInt8 :=
  Packed.table Node.pack g.branches ++ Packed.text g.entry

/-- Reads a grammar. -/
def unpack : Decoder (Grammar String) := do
  let branches ← Packed.readTable Node.unpack
  return ⟨branches, ← Packed.readText⟩

/-- The grammar at the front of a list of bytes. -/
def ofBytes (bytes : List UInt8) : Except Damage (Grammar String) := unpack.value bytes

end Grammar

end Typeahead
