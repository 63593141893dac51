import Typeahead.Disk.Error
import Typeahead.Disk.Path

/-! # Disks

A disk holds files and folders, each of them at an address: the names that lead to it from the root.
A path is followed segment by segment, from the root or from the folder one is in, and every segment
must be met in a folder.  Only what operations report about files is modelled: there are no links,
no owners and no times. -/

namespace Typeahead

namespace Disk

/-- The names that lead from the root to a file or folder. -/
abbrev Address := List String

/-- What stands at an address. -/
inductive Entry where
  | file (bytes : List UInt8)
  | folder
  deriving DecidableEq, Repr

end Disk

/-- Files and folders, and the folder one is in. -/
structure Disk where
  home : Disk.Address
  /-- What stands at each address but the root. -/
  entries : List (Disk.Address × Disk.Entry)
  /-- At most one thing stands at an address. -/
  distinct : (entries.map Prod.fst).Nodup

namespace Disk

/-- What stands at an address.  The root is a folder. -/
def find? (d : Disk) (address : Address) : Option Entry :=
  if address = [] then some .folder else d.entries.lookup address

theorem nodup_filter {p : Address × Entry → Bool} {l : List (Address × Entry)}
    (h : (l.map Prod.fst).Nodup) : ((l.filter p).map Prod.fst).Nodup :=
  h.sublist (List.filter_sublist.map _)

/-- Puts something at an address, in place of what stood there. -/
def put (d : Disk) (address : Address) (entry : Entry) : Disk where
  home := d.home
  entries := (address, entry) :: d.entries.filter fun e => decide (e.1 ≠ address)
  distinct := by
    rw [List.map_cons, List.nodup_cons]
    refine ⟨fun h => ?_, nodup_filter d.distinct⟩
    obtain ⟨e, he, ha⟩ := List.mem_map.1 h
    simpa [ha] using (List.mem_filter.1 he).2

/-- Removes what stands at an address and, if it is a folder, everything in it. -/
def erase (d : Disk) (address : Address) : Disk where
  home := d.home
  entries := d.entries.filter fun e => !address.isPrefixOf e.1
  distinct := nodup_filter d.distinct

/-! ### Following paths -/

/-- The most bytes that a name may have. -/
def maxName : Nat := 255

/-- The most bytes that a path may have. -/
def maxPath : Nat := 4095

/-- Follows segments from an address. -/
def walk (d : Disk) (address : Address) : List String → Except DiskError Address
  | [] => .ok address
  | segment :: rest =>
    match d.find? address with
    | none => .error .notFound
    | some (.file _) => .error .notFolder
    | some .folder =>
      if Path.isIdle segment then walk d address rest
      else if segment = ".." then walk d address.dropLast rest
      else if maxName < segment.utf8ByteSize then .error .nameTooLong
      else if d.find? (address ++ [segment]) = none then .error .notFound
      else walk d (address ++ [segment]) rest

/-- The address at which a path begins. -/
def start (d : Disk) (path : Path) : Address := if path.absolute then [] else d.home

/-- The address to which a path leads. -/
def locate (d : Disk) (path : Path) : Except DiskError Address :=
  if path.text.toList.contains '\x00' then .error .nullCharacter
  else if path.text = "" then .error .notFound
  else if maxPath < path.text.utf8ByteSize then .error .nameTooLong
  else d.walk (d.start path) path.segments

/-- Whether a path leads to something. -/
def pathExists (d : Disk) (path : Path) : Bool :=
  match d.locate path with
  | .ok _ => true
  | .error _ => false

/-! ### Files and folders -/

/-- The bytes of a file. -/
def read (d : Disk) (path : Path) : Except DiskError (List UInt8) := do
  match d.find? (← d.locate path) with
  | some (.file bytes) => return bytes
  | some .folder => throw .isFolder
  | none => throw .notFound

/-- The text of a file. -/
def readText (d : Disk) (path : Path) : Except DiskError String := do
  match String.fromUTF8? ⟨(← d.read path).toArray⟩ with
  | some text => return text
  | none => throw .notText

/-- Writes a file, which is new or replaces another file, into a folder that is there already. -/
def write (d : Disk) (path : Path) (bytes : List UInt8) : Except DiskError Disk :=
  match d.locate path with
  | .ok address =>
    match d.find? address with
    | some (.file _) => .ok (d.put address (.file bytes))
    | _ => .error .isFolder
  | .error .notFound => do
    match path.segments.getLast? with
    | none => throw .notFound
    | some name =>
      if Path.isIdle name ∨ name = ".." then throw .notFound
      let folder ← d.walk (d.start path) path.segments.dropLast
      return d.put (folder ++ [name]) (.file bytes)
  | .error error => .error error

/-- Follows segments from an address and makes the folders that are missing. -/
def makeFolders (d : Disk) (address : Address) : List String → Except DiskError (Disk × Address)
  | [] => .ok (d, address)
  | segment :: rest =>
    if Path.isIdle segment then makeFolders d address rest
    else if segment = ".." then makeFolders d address.dropLast rest
    else if maxName < segment.utf8ByteSize then .error .nameTooLong
    else
      match d.find? (address ++ [segment]) with
      | some (.file _) => .error .notFolder
      | some .folder => makeFolders d (address ++ [segment]) rest
      | none => makeFolders (d.put (address ++ [segment]) .folder) (address ++ [segment]) rest

/-- The disk that holds nothing but the folder one is in. -/
def ofHome (home : Address) : Disk :=
  (List.range home.length).foldl (fun d n => d.put (home.take (n + 1)) .folder) ⟨home, [], .nil⟩

/-- Makes a folder and the folders above it. -/
def addFolder (d : Disk) (path : Path) : Except DiskError Disk :=
  Prod.fst <$> d.makeFolders (d.start path) path.segments

/-- Makes a file and the folders above it. -/
def addFile (d : Disk) (path : Path) (bytes : List UInt8) : Except DiskError Disk := do
  let (d, _) ← d.makeFolders (d.start path) path.parent.segments
  d.write path bytes

/-- Removes a file or a folder. -/
def remove (d : Disk) (path : Path) : Except DiskError Disk := d.erase <$> d.locate path

/-! ### Listing a folder -/

/-- The names of the files in a folder. -/
def fileNames (d : Disk) (folder : Address) : List String :=
  d.entries.filterMap fun
    | (address, .file _) => if address.dropLast = folder then address.getLast? else none
    | (_, .folder) => none

/-- The stem of a name that has the given extension. -/
def stemWith? (extension name : String) : Option String :=
  if (Path.splitName name).2 = some extension then some (Path.splitName name).1 else none

/-- The stems of the files in a folder that have the given extension, in increasing order.  A file
is left out if the path that leads to it by way of the folder's path is too long. -/
def list (d : Disk) (path : Path) (extension : String) : Except DiskError (List String) := do
  let address ← d.locate path
  match d.find? address with
  | some .folder =>
    let names := (d.fileNames address).filter fun name => d.pathExists (path.join ⟨false, [name]⟩)
    return (names.filterMap (stemWith? extension)).mergeSort fun s t => !decide (t < s)
  | _ => throw .notFolder

/-- The path of a folder that is given as text: a dot, also with a slash behind it, stands for the
folder one is in. -/
def folder (d : Disk) (text : String) : Path :=
  if text = "." ∨ text = "./" then ⟨true, d.home⟩ else .ofText text

end Disk

end Typeahead
