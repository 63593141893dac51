import Typeahead.Dictionary
import Typeahead.Disk
import Typeahead.Grammar.Packed
import Typeahead.Json.Reader
import Typeahead.Text.Blank

/-! # Loading dictionaries

A dictionary is loaded from a JSON file of entries.  Beside the file lies its cache, which holds the
compiled dictionary as bytes: a cache that is there is read instead of the file, and otherwise the
file is compiled and the cache written, if that is possible.  The cache does not hold the name of
the dictionary, which is the stem of the file and is added by every load. -/

namespace Typeahead

namespace Dictionary

/-! ### Caches -/

/-- The bytes of a dictionary. -/
def pack (d : Dictionary) : List UInt8 :=
  Packed.table Grammar.pack d.entries ++ Packed.sequence Packed.text d.names

/-- Reads a dictionary. -/
def unpack : Decoder Dictionary := do
  let entries ← Packed.readTable Grammar.unpack
  return ⟨entries, ← Packed.readSequence Packed.readText⟩

/-- The dictionary at the front of a list of bytes. -/
def ofBytes (bytes : List UInt8) : Except DictionaryError Dictionary :=
  match unpack.value bytes with
  | .ok d => .ok d
  | .error damage => .error (.cache damage)

end Dictionary

/-- The path of the cache of a file: beside the file, under its stem, with the extension `bin`. -/
def Path.cache? (p : Path) : Option Path :=
  p.stem?.map fun stem => (p.parent.join ⟨false, [stem]⟩).withExtension "bin"

namespace Dictionary

/-! ### Files -/

/-- The result of a disk operation, as that of loading. -/
def ofDisk {α : Type} : Except DiskError α → Except DictionaryError α
  | .ok a => .ok a
  | .error error => .error (.disk error)

/-- The dictionary that a JSON text writes. -/
def ofText (text : String) : Except DictionaryError Dictionary :=
  match Json.ofText? text with
  | some value => ofJson value
  | none => .error .notJson

/-- Compiles a JSON file. -/
def compileFile (disk : Disk) (path : Path) : Except DictionaryError Dictionary := do
  ofText (← ofDisk (disk.readText path))

/-- Reads a cache. -/
def readCache (disk : Disk) (cache : Path) : Except DictionaryError Dictionary := do
  ofBytes (← ofDisk (disk.read cache))

/-- The disk with a cache written to it, if it can be. -/
def writeCache (disk : Disk) (cache : Path) (d : Dictionary) : Disk :=
  match disk.write cache d.pack with
  | .ok disk => disk
  | .error _ => disk

/-- Loads the dictionary of a file: from its cache if there is one, and otherwise from the file, in
which case the cache is written. -/
def load (disk : Disk) (path : Path) : Except DictionaryError Dictionary × Disk :=
  match path.stem?, path.cache? with
  | some name, some cache =>
    if disk.pathExists cache then ((·.addName name) <$> readCache disk cache, disk)
    else
      match compileFile disk path with
      | .ok d => (.ok (d.addName name), writeCache disk cache d)
      | .error error => (.error error, disk)
  | _, _ => (.error (.disk .noFileName), disk)

end Dictionary

/-! ### Several dictionaries -/

/-- A dictionary that could not be loaded. -/
structure LoadError where
  name : String
  error : DictionaryError
  deriving DecidableEq, Repr

/-- The sentence that reports the error. -/
def LoadError.message (e : LoadError) : String :=
  "Failed to load dictionary '" ++ e.name ++ "': " ++ e.error.message

namespace Dictionary

/-- The names in a list that is parted by commas. -/
def namesOf (text : String) : List String :=
  ((text.toList.splitOn ',').map fun cs => trim (.ofList cs)).filter (· ≠ "")

/-- Merges the named dictionaries of a folder into `d`, one after the other, up to the first that
cannot be loaded. -/
def mergeNamed (folder : Path) (disk : Disk) (d : Dictionary) :
    List String → Except LoadError Dictionary × Disk
  | [] => (.ok d, disk)
  | name :: rest =>
    match load disk (folder.join (.ofText (name ++ ".json"))) with
    | (.ok e, disk) => mergeNamed folder disk (d.merge e) rest
    | (.error error, disk) => (.error ⟨name, error⟩, disk)

/-- Loads the dictionaries of a folder that are named in a list parted by commas. -/
def loadNamed (disk : Disk) (folder : Path) (names : String) :
    Except LoadError Dictionary × Disk :=
  mergeNamed folder disk empty (namesOf names)

end Dictionary

end Typeahead
