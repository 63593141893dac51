/-! # Paths

A path is a list of segments, read from a folder or from the root.  A segment that is empty or a
single dot stays where it is, two dots lead to the folder above, and every other segment is a name.
The last name of a path is its file name; the part of it from its last dot on is the extension,
unless that dot comes first. -/

namespace Typeahead

/-- A path, as it was written. -/
structure Path where
  /-- Whether the path begins at the root. -/
  absolute : Bool
  /-- What stands between the slashes. -/
  segments : List String
  deriving DecidableEq, Repr

namespace Path

/-- Reads a path. -/
def ofText (text : String) : Path :=
  let split (cs : List Char) : List String :=
    if cs = [] then [] else (cs.splitOn '/').map String.ofList
  match text.toList with
  | '/' :: rest => ⟨true, split rest⟩
  | cs => ⟨false, split cs⟩

/-- The path as it is written. -/
def text (p : Path) : String := (if p.absolute then "/" else "") ++ "/".intercalate p.segments

/-- Whether a segment stays where it is. -/
def isIdle (segment : String) : Bool := segment = "" || segment = "."

/-- Segments without the idle ones at the end. -/
def settle (segments : List String) : List String := (segments.reverse.dropWhile isIdle).reverse

/-- The segments of a path without the idle ones at the end. -/
def settled (p : Path) : List String := settle p.segments

/-- The file name, if the path ends in a name. -/
def fileName? (p : Path) : Option String :=
  match p.settled.getLast? with
  | none => none
  | some segment => if segment = ".." then none else some segment

/-- The path without its file name and the idle segments before it.  A dot with which a path begins
stays, unless the path begins at the root. -/
def parent (p : Path) : Path :=
  let above := p.settled.dropLast
  let kept := settle above
  if kept = [] ∧ !p.absolute ∧ above.head? = some "." then { p with segments := ["."] }
  else { p with segments := kept }

/-- What of a name stands before its last dot, and what after it; the whole name has no extension if
there is no dot or only one that comes first. -/
def splitName (name : String) : String × Option String :=
  let pieces := name.toList.splitOn '.'
  let stem := ['.'].intercalate pieces.dropLast
  if stem = [] then (name, none) else (.ofList stem, pieces.getLast?.map String.ofList)

/-- The file name without its extension. -/
def stem? (p : Path) : Option String := p.fileName?.map fun name => (splitName name).1

/-- The path that leads on from `p` along `q`, which replaces `p` if it begins at the root. -/
def join (p q : Path) : Path :=
  if q.absolute then q
  else if p.segments.getLast? = some "" then ⟨p.absolute, p.segments.dropLast ++ q.segments⟩
  else ⟨p.absolute, p.segments ++ q.segments⟩

/-- The path whose file name has the given extension instead of its own; a path without a file name
stays as it is. -/
def withExtension (p : Path) (extension : String) : Path :=
  match p.stem? with
  | none => p
  | some stem => { p with segments := p.settled.dropLast ++ [stem ++ "." ++ extension] }

end Path

end Typeahead
