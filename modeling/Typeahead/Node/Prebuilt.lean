import Typeahead.Node
import Typeahead.Node.Misfit

/-! # Nodes as plain JSON

A node is an array of alternatives: a string is a literal, an array is a nested node, and an object
is a directive.  A directive refers to a branch (`branch`, with an optional `then` for what follows
it) or holds an inline script (`script`, or `ps` for short).  A string or a directive may also stand
for the node that has it as its only alternative.  `Node.toJson` writes the form that
`Node.ofJson` reads back. -/

namespace Typeahead

namespace Node

/-! ### Writing -/

mutual

/-- The JSON form of an alternative. -/
def alternativeToJson : Alternative String → Json
  | .literal text => .text text
  | .nested node => .array (itemsToJson node)
  | .reference name next => .object (("branch", .text name) :: continuationToJson next)
  | .script text => .object [("script", .text text)]

/-- The field for what follows a reference, if anything does. -/
def continuationToJson : Continuation String → List (String × Json)
  | .nothing => []
  | .text text => [("then", .text text)]
  | .node node => [("then", .array (itemsToJson node))]

/-- The JSON forms of a list of alternatives. -/
def itemsToJson : List (Alternative String) → List Json
  | [] => []
  | a :: rest => alternativeToJson a :: itemsToJson rest

end

/-- The JSON form of a node. -/
def toJson (node : Node String) : Json := .array (itemsToJson node)

/-! ### Reading -/

/-- Refuses an object that has other keys than the allowed ones, naming the first of them. -/
def onlyKeys (allowed : List String) (location : Location) (fields : List (String × Json)) :
    Except Misfit Unit :=
  match fields.find? fun f => !allowed.contains f.1 with
  | some (key, _) => .error ⟨location ++ [.field key], .strayKey key⟩
  | none => .ok ()

/-- The directive that an object writes, given the reading of what follows its reference. -/
def directive (location : Location) (fields : List (String × Json))
    (next : Except Misfit (Continuation String)) : Except Misfit (Alternative String) :=
  match fields.lookup "branch", (fields.lookup "script").or (fields.lookup "ps") with
  | some _, some _ => .error ⟨location, .twofold⟩
  | some (.text name), none => do
    onlyKeys ["branch", "then"] location fields
    return .reference name (← next)
  | some other, none => .error ⟨location ++ [.field "branch"], .nameNotText other.kind⟩
  | none, some (.text text) => do
    onlyKeys ["script", "ps"] location fields
    return .script text
  | none, some other => .error ⟨location ++ [.field "script"], .scriptNotText other.kind⟩
  | none, none => .error ⟨location, .shapeless⟩

/-- What the value of `then` stands for, given its reading as a node. -/
def continuation (value : Json) (node : Except Misfit (Node String)) :
    Except Misfit (Continuation String) :=
  match value with
  | .null => .ok .nothing
  | .text text => .ok (.text text)
  | _ => .node <$> node

mutual

/-- Reads a node that stands at `location`. -/
def read (location : Location) : Json → Except Misfit (Node String)
  | .text text => .ok [.literal text]
  | .array items => readItems location 0 items
  | .object fields => (fun d => [d]) <$> directive location fields (readThen location fields)
  | .null => .error ⟨location, .notNode .null⟩
  | .boolean _ => .error ⟨location, .notNode .boolean⟩
  | .number _ => .error ⟨location, .notNode .number⟩

/-- Reads the items of an array as alternatives, the first of them being item `index`. -/
def readItems (location : Location) (index : Nat) : List Json → Except Misfit (Node String)
  | [] => .ok []
  | item :: rest => do
    let a ← readAlternative (location ++ [.item index]) item
    return a :: (← readItems location (index + 1) rest)

/-- Reads an alternative that stands at `location`. -/
def readAlternative (location : Location) : Json → Except Misfit (Alternative String)
  | .text text => .ok (.literal text)
  | .array items => .nested <$> readItems location 0 items
  | .object fields => directive location fields (readThen location fields)
  | .null => .error ⟨location, .notAlternative .null⟩
  | .boolean _ => .error ⟨location, .notAlternative .boolean⟩
  | .number _ => .error ⟨location, .notAlternative .number⟩

/-- Reads the field `then` of the object at `location`. -/
def readThen (location : Location) : List (String × Json) → Except Misfit (Continuation String)
  | [] => .ok .nothing
  | (key, value) :: rest =>
    if key = "then" then continuation value (read (location ++ [.field "then"]) value)
    else readThen location rest

end

/-- Reads a node from its JSON form. -/
def ofJson (value : Json) : Except Misfit (Node String) := read [] value

end Node

end Typeahead
