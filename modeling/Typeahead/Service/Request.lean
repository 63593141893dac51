import Typeahead.Dictionary.Search
import Typeahead.Json

/-! # Requests

A request asks for something by a method and a path, with parameters in its query or a JSON value in
its body.  The readers of parameters accept what fits the parameter: an optional parameter may be
absent, a parameter that is known must not be given twice, and parameters that are not known are
ignored.  In a body, `null` stands for an absent parameter, and the parameters may also be written
as the array of all of them in order. -/

namespace Typeahead

/-- A request to the service. -/
structure Request where
  method : String
  path : String
  query : List (String × String)
  body : Option Json

namespace Request

/-! ### Parameters in a query -/

/-- A parameter that may be absent but must not be given twice. -/
def optional? (query : List (String × String)) (key : String) : Option (Option String) :=
  match query.filter fun p => p.1 = key with
  | [] => some none
  | [p] => some (some p.2)
  | _ => none

/-- A parameter that must be given once. -/
def required? (query : List (String × String)) (key : String) : Option String :=
  (optional? query key).join

/-- An optional parameter whose text must fit a reader. -/
def parsed? {α : Type} (read : String → Option α) (query : List (String × String))
    (key : String) : Option (Option α) := do
  match ← optional? query key with
  | none => return none
  | some text => return some (← read text)

/-- The natural number below 2^64 that a text writes, also after a plus sign. -/
def wordOfText? (text : String) : Option Nat :=
  match text.toList with
  | '+' :: digits => Json.wordOfDigits? digits
  | digits => Json.wordOfDigits? digits

/-! ### Parameters in a body -/

/-- The mode that a value names: by its text, or as the only key of an object that holds `null`. -/
def modeOfJson? : Json → Option Mode
  | .text name => Mode.ofName? name
  | .object [(name, .null)] => Mode.ofName? name
  | _ => none

/-- A value that is absent if it is `null` and must fit a reader otherwise. -/
def present? {α : Type} (read : Json → Option α) : Json → Option (Option α)
  | .null => some none
  | value => some <$> read value

/-! ### What is asked for -/

/-- The parameters of a suggestion. -/
structure SuggestParameters where
  text : String
  mode : Option Mode
  window : Option Nat
  maxResults : Option Nat

/-- The parameters of an expansion: a source that is a script or JSON, and how many phrases of it
are wanted. -/
structure ExpandParameters where
  source : Json
  mode : Option Mode
  maxResults : Option Nat

/-- Reads the parameters of a suggestion. -/
def suggest? (query : List (String × String)) : Option SuggestParameters := do
  return ⟨← required? query "text", ← parsed? Mode.ofName? query "mode",
    ← parsed? wordOfText? query "window", ← parsed? wordOfText? query "max_results"⟩

/-- Reads the parameters of the expansion of a script. -/
def expandQuery? (query : List (String × String)) : Option ExpandParameters := do
  return ⟨.text (← required? query "script"), ← parsed? Mode.ofName? query "mode",
    ← parsed? wordOfText? query "max_results"⟩

/-- Reads the parameters of the expansion of a source. -/
def expandBody? : Json → Option ExpandParameters
  | .object fields => do
    return ⟨← fields.lookup "source", ← present? modeOfJson? ((fields.lookup "mode").getD .null),
      ← present? Json.word? ((fields.lookup "max_results").getD .null)⟩
  | .array [source, mode, maxResults] => do
    return ⟨source, ← present? modeOfJson? mode, ← present? Json.word? maxResults⟩
  | _ => none

end Request

end Typeahead
