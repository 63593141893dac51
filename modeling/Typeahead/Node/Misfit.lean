import Typeahead.Json

/-! # Values that are no nodes

A misfit says where in a JSON value something stands that a node cannot hold there, and what is
wrong with it. -/

namespace Typeahead

/-- One step into a JSON value: to an item of an array or to a field of an object. -/
inductive Step where
  | item (index : Nat)
  | field (key : String)
  deriving DecidableEq, Repr

/-- The way from a JSON value to a value inside it. -/
abbrev Location := List Step

namespace Location

/-- A step as it is written in a location. -/
def stepText : Step → String
  | .item index => toString index
  | .field key => key

/-- The location as text: a slash before each step, and one slash for the whole value. -/
def render : Location → String
  | [] => "/"
  | steps => String.join (steps.map fun s => "/" ++ stepText s)

/-- The location of a value inside the field `key`.  A location whose text is one slash stands for
the whole field. -/
def under (key : String) (location : Location) : Location :=
  if location.render = "/" then [.field key] else .field key :: location

end Location

/-- What is wrong with a value that should be part of a node. -/
inductive MisfitReason where
  /-- A node must be a string, an array or a directive. -/
  | notNode (found : Json.Kind)
  /-- An alternative must be a string, an array or a directive. -/
  | notAlternative (found : Json.Kind)
  /-- A directive names a branch and holds a script. -/
  | twofold
  /-- A directive names no branch and holds no script. -/
  | shapeless
  /-- The name of a branch must be a string. -/
  | nameNotText (found : Json.Kind)
  /-- A script must be a string. -/
  | scriptNotText (found : Json.Kind)
  /-- A directive has a key that it cannot have. -/
  | strayKey (key : String)
  /-- A dictionary of branches lacks the one that expansion starts from. -/
  | noMain
  deriving DecidableEq, Repr

/-- The sentence that reports the reason. -/
def MisfitReason.message : MisfitReason → String
  | .notNode found => "expected a string, an array or a directive, got " ++ found.phrase
  | .notAlternative found => "an alternative cannot be " ++ found.phrase
  | .twofold => "directive cannot be both a branch and a script"
  | .shapeless => "object is neither a branch nor a script directive"
  | .nameNotText found => "branch name must be a string, got " ++ found.phrase
  | .scriptNotText found => "script must be a string, got " ++ found.phrase
  | .strayKey key => "unexpected key '" ++ key ++ "' in directive"
  | .noMain => "dictionary has no 'main' branch"

/-- Something that is out of place in a JSON value, and where. -/
structure Misfit where
  location : Location
  reason : MisfitReason
  deriving DecidableEq, Repr

/-- The sentence that reports the misfit. -/
def Misfit.message (misfit : Misfit) : String :=
  "invalid structure at " ++ misfit.location.render ++ ": " ++ misfit.reason.message

end Typeahead
