import Typeahead.Json.Token

/-! # Reading JSON text

The tokens of a text are read one by one onto a stack of the arrays and objects that are still
open, so nothing but the stack grows with the nesting, and a text that nests `maxDepth` arrays and
objects or more is refused.  Of fields with equal keys the last one stays. -/

namespace Typeahead.Json

/-- The nesting at which a text is refused. -/
def maxDepth : Nat := 128

/-- An array or object that is still open. -/
inductive Frame where
  /-- An array and its items, back to front. -/
  | array (back : List Json)
  /-- An object and its fields, ordered by key. -/
  | object (fields : List (String × Json))
  /-- An object and the key whose value is being read. -/
  | field (fields : List (String × Json)) (key : String)

/-- What may come next. -/
inductive Due where
  /-- A value. -/
  | value
  /-- A value or the end of the array that was just opened. -/
  | item
  /-- A key or the end of the object that was just opened. -/
  | key
  /-- A key after a comma. -/
  | nextKey
  /-- A colon. -/
  | colon
  /-- A comma or the end of the innermost array or object; or nothing, if none is open. -/
  | separator
  deriving DecidableEq

/-- The reader: what is open, innermost first, what is due, and the value that was completed
last. -/
structure Reader where
  frames : List Frame
  due : Due
  last : Json

/-- A value that was just completed goes into the innermost array or object. -/
def Reader.complete (frames : List Frame) (value : Json) : Reader :=
  match frames with
  | .array back :: rest => ⟨.array (value :: back) :: rest, .separator, value⟩
  | .field fields key :: rest => ⟨.object (Table.place key value fields) :: rest, .separator, value⟩
  | frames => ⟨frames, .separator, value⟩

/-- Opens an array or object, unless the nesting becomes too deep. -/
def Reader.openFrame (r : Reader) (frame : Frame) (due : Due) : Option Reader :=
  if r.frames.length + 1 < maxDepth then some ⟨frame :: r.frames, due, r.last⟩ else none

/-- Reads a token where a value may stand. -/
def Reader.value (r : Reader) : Token → Option Reader
  | .null => some (.complete r.frames .null)
  | .boolean b => some (.complete r.frames (.boolean b))
  | .number literal => some (.complete r.frames (.number literal))
  | .text t => some (.complete r.frames (.text t))
  | .openArray => r.openFrame (.array []) .item
  | .openObject => r.openFrame (.object []) .key
  | _ => none

/-- Closes the innermost array or object. -/
def Reader.close (r : Reader) (token : Token) : Option Reader :=
  match r.frames, token with
  | .array back :: rest, .closeArray => some (.complete rest (.array back.reverse))
  | .object fields :: rest, .closeObject => some (.complete rest (.object fields))
  | _, _ => none

/-- Reads a token where a key must stand. -/
def Reader.key (r : Reader) (token : Token) : Option Reader :=
  match r.frames, token with
  | .object fields :: rest, .text key => some ⟨.field fields key :: rest, .colon, r.last⟩
  | _, _ => none

/-- Reads a comma between two items or fields. -/
def Reader.comma (r : Reader) : Option Reader :=
  match r.frames with
  | .array _ :: _ => some { r with due := .value }
  | .object _ :: _ => some { r with due := .nextKey }
  | _ => none

/-- Reads a token. -/
def Reader.step (r : Reader) (token : Token) : Option Reader :=
  match r.due with
  | .value => r.value token
  | .item => if token = .closeArray then r.close token else r.value token
  | .key => if token = .closeObject then r.close token else r.key token
  | .nextKey => r.key token
  | .colon => if token = .colon then some { r with due := .value } else none
  | .separator => if token = .comma then r.comma else r.close token

/-- The value of a list of tokens. -/
def ofTokens? (tokens : List Token) : Option Json := do
  let r ← tokens.foldlM Reader.step ⟨[], .value, .null⟩
  if r.frames.isEmpty ∧ r.due = .separator then some r.last else none

/-- The value that a text writes. -/
def ofText? (text : String) : Option Json := do ofTokens? (← Token.ofText? text)

end Typeahead.Json
