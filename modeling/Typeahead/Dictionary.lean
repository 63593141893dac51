import Typeahead.Disk.Error
import Typeahead.Grammar.Prebuilt
import Typeahead.Packed.Decoder

/-! # Dictionaries

A dictionary gives a grammar to each of its keys and remembers the names of the files it was made
from.  It is compiled from an object of entries.  The entries are cut into chunks, so that several
workers can compile them at once; each worker reports its grammars or the first entry that does not
compile, and the reports are gathered in the order in which they arrive. -/

namespace Typeahead

/-- Grammars by key, and the names of the dictionaries that were merged. -/
structure Dictionary where
  entries : Table (Grammar String)
  names : List String
  deriving DecidableEq

/-- Why a dictionary cannot be loaded or compiled. -/
inductive DictionaryError where
  /-- A file cannot be read. -/
  | disk (error : DiskError)
  /-- A file is no JSON text. -/
  | notJson
  /-- A cache is damaged. -/
  | cache (damage : Damage)
  /-- The value is no object of entries. -/
  | notObject
  /-- An entry does not compile. -/
  | entry (key : String) (error : GrammarError)
  deriving DecidableEq, Repr

/-- The sentence that reports the error. -/
def DictionaryError.message : DictionaryError → String
  | .disk error => "i/o error: " ++ error.message
  | .notJson => "invalid JSON"
  | .cache damage => "binary cache error: " ++ damage.message
  | .notObject => "dictionary root must be an object of entries"
  | .entry key error => "entry '" ++ key ++ "': " ++ error.message

namespace Dictionary

/-- The dictionary without entries. -/
def empty : Dictionary := ⟨.empty, []⟩

/-- The grammar of a key. -/
def get? (d : Dictionary) (key : String) : Option (Grammar String) := d.entries.get? key

/-- The number of entries. -/
def size (d : Dictionary) : Nat := d.entries.size

/-- Gives a key a grammar, in place of the one it had. -/
def insert (d : Dictionary) (key : String) (g : Grammar String) : Dictionary :=
  { d with entries := d.entries.insert key g }

/-- Both dictionaries: the entries of the second override those of the first, and its names come
after. -/
def merge (d e : Dictionary) : Dictionary := ⟨d.entries.override e.entries, d.names ++ e.names⟩

/-- The dictionary with one more name. -/
def addName (d : Dictionary) (name : String) : Dictionary := { d with names := d.names ++ [name] }

/-! ### Compiling entries -/

/-- A list cut into pieces of the given length, the last of which may be shorter. -/
def chunks {α : Type} (length : Nat) : List α → List (List α)
  | [] => []
  | a :: rest => (a :: rest.take (length - 1)) :: chunks length (rest.drop (length - 1))
termination_by l => l.length
decreasing_by simp only [List.length_drop, List.length_cons]; omega

/-- The length of the chunks into which `n` entries are cut: eight chunks for each processor, if
there are enough entries. -/
def chunkLength (processors n : Nat) : Nat := (n + 8 * processors - 1) / (8 * processors)

/-- Compiles one entry. -/
def compileEntry (entry : String × Json) : Except DictionaryError (String × Grammar String) :=
  match Grammar.ofJson entry.2 with
  | .ok g => .ok (entry.1, g)
  | .error error => .error (.entry entry.1 error)

/-- What a worker reports: the grammars of a chunk, or its first entry that does not compile. -/
abbrev Report := Except DictionaryError (List (String × Grammar String))

/-- The report on a chunk. -/
def report (chunk : List (String × Json)) : Report := chunk.mapM compileEntry

/-- The reports on all chunks, in the order of the entries. -/
def reports (processors : Nat) (entries : List (String × Json)) : List Report :=
  (chunks (chunkLength processors entries.length) entries).map report

/-- The dictionary that is gathered from reports in the order in which they arrive. -/
def gather (arrivals : List Report) : Except DictionaryError Dictionary := do
  return ⟨← arrivals.foldlM (fun t r => return t.insertAll (← r)) .empty, []⟩

/-- Compiles an object of entries, with the reports arriving in the order of the entries. -/
def ofJson : Json → Except DictionaryError Dictionary
  | .object fields => gather (reports 1 fields)
  | _ => .error .notObject

end Dictionary

end Typeahead
