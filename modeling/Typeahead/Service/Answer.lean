import Typeahead.Dictionary.Load
import Typeahead.Dictionary.Suggest

/-! # Answers

An answer says what came of a request.  Its status and its body follow from that. -/

namespace Typeahead

/-- What came of a request. -/
inductive Answer where
  /-- A list of texts. -/
  | texts (ts : List String)
  /-- A suggestion. -/
  | suggestion (s : Suggestion)
  /-- Nothing completes the text. -/
  | nothing
  /-- Dictionaries were loaded. -/
  | loaded
  /-- The parameters do not fit the request. -/
  | unfit
  /-- A parameter is refused. -/
  | refused (error : SearchError)
  /-- No dictionary is named. -/
  | unnamed
  /-- The source cannot be read or expanded. -/
  | rejected (error : GrammarError)
  /-- A dictionary could not be loaded. -/
  | loadFailed (error : LoadError)
  /-- The folder could not be listed. -/
  | listFailed
  /-- Nothing is asked for in this way. -/
  | unrouted

/-- The body of an answer. -/
inductive Body where
  | json (value : Json)
  | text (text : String)
  /-- A text that the service leaves to what carries its answers. -/
  | unspecified

namespace Answer

/-- The status of an answer. -/
def status : Answer → Nat
  | .texts _ | .suggestion _ | .loaded => 200
  | .nothing => 204
  | .unfit | .refused _ | .unnamed => 400
  | .unrouted => 404
  | .rejected _ => 422
  | .loadFailed _ | .listFailed => 500

/-- The body of an answer. -/
def body : Answer → Body
  | .texts ts => .json (.ofTexts ts)
  | .suggestion s => .json s.toJson
  | .nothing | .unrouted => .text ""
  | .loaded => .text "Dictionaries loaded successfully"
  | .unfit => .unspecified
  | .refused error => .text error.message
  | .unnamed => .text "Missing or empty dictionary name"
  | .rejected error => .text error.message
  | .loadFailed error => .text error.message
  | .listFailed => .text "Failed to list dictionaries"

end Answer

end Typeahead
