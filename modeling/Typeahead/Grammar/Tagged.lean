import Typeahead.Grammar
import Typeahead.Json

/-! # Grammars as tagged JSON

In the tagged form every record is an object of its fields and every choice an object whose only key
names the case, so that a grammar is kept whole: also its entry, and whether a continuation is
absent, a text or a node.  Readers ignore fields that they do not know.  A grammar and a node may
also be written as the array of their fields. -/

namespace Typeahead

namespace Node

/-! ### Writing -/

mutual

/-- The tagged form of an alternative. -/
def alternativeToTagged : Alternative String → Json
  | .literal text => .object [("Literal", .text text)]
  | .nested node => .object [("Branch", .object [("alternatives", .array (itemsToTagged node))])]
  | .reference name next =>
    .object [("Directive", .object [("Branch",
      .object [("name", .text name), ("then", continuationToTagged next)])])]
  | .script text => .object [("Directive", .object [("Script", .text text)])]

/-- The tagged form of a continuation. -/
def continuationToTagged : Continuation String → Json
  | .nothing => .null
  | .text text => .object [("Text", .text text)]
  | .node node => .object [("Node", .object [("alternatives", .array (itemsToTagged node))])]

/-- The tagged forms of a list of alternatives. -/
def itemsToTagged : List (Alternative String) → List Json
  | [] => []
  | a :: rest => alternativeToTagged a :: itemsToTagged rest

end

/-- The tagged form of a node. -/
def toTagged (node : Node String) : Json := .object [("alternatives", .array (itemsToTagged node))]

/-! ### Reading -/

mutual

/-- Reads a node. -/
def ofTagged? : Json → Option (Node String)
  | .object fields => alternativesField? fields
  | .array [items] => alternatives? items
  | _ => none

/-- Reads the field that holds the alternatives of a node. -/
def alternativesField? : List (String × Json) → Option (Node String)
  | [] => none
  | (key, value) :: rest =>
    if key = "alternatives" then alternatives? value else alternativesField? rest

/-- Reads the alternatives of a node. -/
def alternatives? : Json → Option (Node String)
  | .array items => items? items
  | _ => none

/-- Reads alternatives one by one. -/
def items? : List Json → Option (Node String)
  | [] => some []
  | item :: rest => do
    let a ← alternative? item
    return a :: (← items? rest)

/-- Reads an alternative. -/
def alternative? : Json → Option (Alternative String)
  | .object [(tag, value)] =>
    if tag = "Literal" then .literal <$> value.text?
    else if tag = "Branch" then .nested <$> ofTagged? value
    else if tag = "Directive" then directive? value
    else none
  | _ => none

/-- Reads a reference or a script. -/
def directive? : Json → Option (Alternative String)
  | .object [(tag, value)] =>
    if tag = "Branch" then reference? value
    else if tag = "Script" then .script <$> value.text?
    else none
  | _ => none

/-- Reads a reference. -/
def reference? : Json → Option (Alternative String)
  | .object fields => do
    let name ← (← fields.lookup "name").text?
    return .reference name (← next? fields)
  | _ => none

/-- Reads the field that says what follows a reference; without it nothing does. -/
def next? : List (String × Json) → Option (Continuation String)
  | [] => some .nothing
  | (key, value) :: rest => if key = "then" then continuation? value else next? rest

/-- Reads a continuation. -/
def continuation? : Json → Option (Continuation String)
  | .null => some .nothing
  | .object [(tag, value)] =>
    if tag = "Text" then .text <$> value.text?
    else if tag = "Node" then .node <$> ofTagged? value
    else none
  | _ => none

end

end Node

namespace Grammar

/-- The tagged form of a grammar. -/
def toTagged (g : Grammar String) : Json :=
  .object [("branches", .object (g.branches.entries.map fun e => (e.1, Node.toTagged e.2))),
    ("entry", .text g.entry)]

/-- Reads a dictionary of branches. -/
def branchesOfTagged? : Json → Option (Table (Node String))
  | .object fields => do
    return .ofList (← fields.mapM fun f => do return (f.1, ← Node.ofTagged? f.2))
  | _ => none

/-- Reads a grammar from its two fields. -/
def ofFields? (branches entry : Json) : Option (Grammar String) := do
  return ⟨← branchesOfTagged? branches, ← entry.text?⟩

/-- Reads a grammar from its tagged form. -/
def ofTagged? : Json → Option (Grammar String)
  | .object fields => do ofFields? (← fields.lookup "branches") (← fields.lookup "entry")
  | .array [branches, entry] => ofFields? branches entry
  | _ => none

end Grammar

end Typeahead
