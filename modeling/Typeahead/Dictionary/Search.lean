import Typeahead.Text.Blank

/-! # How a dictionary is searched

A search says how many of the last words may form a key, after which characters the text begins
anew, whether one completion is drawn or all are listed, and how many are listed at most.  Searches
start from the default one; a setting that would make no sense is refused and changes nothing, so
that the window of a search is never empty, its limit never zero, and its delimiters never blank. -/

namespace Typeahead

/-- How many completions are given. -/
inductive Mode where
  /-- One, drawn at random. -/
  | one
  /-- All of them, in order. -/
  | all
  deriving DecidableEq, Repr

/-- The mode of a name. -/
def Mode.ofName? (name : String) : Option Mode :=
  if name = "one" then some .one else if name = "all" then some .all else none

/-- The name of a mode. -/
def Mode.name : Mode → String
  | .one => "one"
  | .all => "all"

/-- The largest limit, which stands for none: no list is longer. -/
def Search.unlimited : Nat := UInt64.size - 1

/-- How a dictionary is searched. -/
structure Search where
  mode : Mode
  /-- How many of the last words may form a key. -/
  window : Nat
  /-- How many completions are listed at most; `Search.unlimited`, if there is no limit. -/
  maxResults : Nat
  /-- The characters after which the text begins anew. -/
  delimiters : List Char
  window_pos : 0 < window
  maxResults_pos : 0 < maxResults
  delimiters_solid : ∀ c ∈ delimiters, isBlank c = false

/-- Why a setting is refused. -/
inductive SearchError where
  | emptyWindow
  | zeroResults
  | blankDelimiter (c : Char)
  deriving DecidableEq, Repr

namespace SearchError

/-- A blank character between quotes: as itself, as an escape of one letter, or by its number. -/
def quoted (c : Char) : String :=
  if c = ' ' then "' '"
  else if c = '\t' then "'\\t'"
  else if c = '\n' then "'\\n'"
  else if c = '\r' then "'\\r'"
  else "'\\u\x7b" ++ .ofList (Nat.toDigits 16 c.toNat) ++ "\x7d'"

/-- The sentence that reports the refusal. -/
def message : SearchError → String
  | .emptyWindow => "Window must contain at least one word"
  | .zeroResults => "max_results must be at least 1"
  | .blankDelimiter c => "Delimiter " ++ quoted c ++ " cannot be whitespace"

end SearchError

namespace Search

/-- The search in the given mode, with a window of three words, no limit, and the full stop and the
comma as delimiters. -/
def new (mode : Mode) : Search where
  mode
  window := 3
  maxResults := unlimited
  delimiters := ['.', ',']
  window_pos := by decide
  maxResults_pos := by decide
  delimiters_solid := by
    simp only [List.mem_cons, List.not_mem_nil, or_false, forall_eq_or_imp, forall_eq]
    decide

/-- The search for one completion. -/
def default : Search := new .one

/-- The search in another mode. -/
def withMode (s : Search) (mode : Mode) : Search := { s with mode }

/-- The search with another window. -/
def withWindow (s : Search) (window : Nat) : Except SearchError Search :=
  if h : 0 < window then .ok { s with window, window_pos := h } else .error .emptyWindow

/-- The limit of a search, if it has one. -/
def limit? (s : Search) : Option Nat :=
  if s.maxResults < unlimited then some s.maxResults else none

/-- The search with another limit, or without one.  A limit that no list can reach is none. -/
def withMaxResults (s : Search) (maxResults : Option Nat) : Except SearchError Search :=
  let limit := maxResults.getD unlimited
  if h : 0 < limit then
    if limit < unlimited then .ok { s with maxResults := limit, maxResults_pos := h }
    else .ok { s with maxResults := unlimited, maxResults_pos := by decide }
  else .error .zeroResults

/-- The search with other delimiters. -/
def withDelimiters (s : Search) (delimiters : List Char) : Except SearchError Search :=
  match h : delimiters.find? isBlank with
  | some c => .error (.blankDelimiter c)
  | none => .ok { s with
      delimiters
      delimiters_solid := fun c hc => by simpa using List.find?_eq_none.1 h c hc }

end Search

end Typeahead
