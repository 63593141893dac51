import Typeahead.Proofs.Compiling
import Typeahead.Proofs.Sharing

/-! # Caches are transparent

A load may compile on any number of processors, write the cache in any form, and fail to write it;
all these loads are `Dictionary.Loads`, and the one that is executed is one of them
(`Dictionary.loads_load`).  While dictionaries are loaded from a folder that held no cache, the disk
only gains caches, and each of them holds what its file compiles to (`Dictionary.Serves`).  One load
keeps this and gives what compiling the file would have given on the disk as it was at first
(`Dictionary.Serves.loads`), and so do all loads of a run (`Dictionary.Serves.runs`). -/

namespace Typeahead
namespace Dictionary

open Typeahead.Path (IsName IsSource cacheName splitName)

/-! ### Loads -/

/-- The outcomes of compiling a file, of which reading its text gave the first argument. -/
inductive CompilesRead : Except DiskError String → Except DictionaryError Dictionary → Prop
  | unreadable (error : DiskError) : CompilesRead (.error error) (.error (.disk error))
  | notJson {text : String} (h : Json.ofText? text = none) :
      CompilesRead (.ok text) (.error .notJson)
  | compiled {text : String} {value : Json} {r : Except DictionaryError Dictionary}
      (hvalue : Json.ofText? text = some value) (h : Compiles value r) : CompilesRead (.ok text) r

/-- The outcomes of a load, each with the disk that it leaves.  A cache that is there is read.
Otherwise the file is compiled and the cache written in some form, unless that is not possible. -/
inductive Loads (d : Disk) (path : Path) : Except DictionaryError Dictionary → Disk → Prop
  | nameless (h : path.cache? = none) : Loads d path (.error (.disk .noFileName)) d
  | cached {name : String} {cache : Path} (hname : path.stem? = some name)
      (hcache : path.cache? = some cache) (h : d.pathExists cache = true) :
      Loads d path ((·.addName name) <$> readCache d cache) d
  | failed {cache : Path} {error : DictionaryError} (hcache : path.cache? = some cache)
      (hmissing : d.pathExists cache = false) (h : CompilesRead (d.readText path) (.error error)) :
      Loads d path (.error error) d
  | unwritten {name : String} {cache : Path} {e : Dictionary} (hname : path.stem? = some name)
      (hcache : path.cache? = some cache) (hmissing : d.pathExists cache = false)
      (h : CompilesRead (d.readText path) (.ok e)) : Loads d path (.ok (e.addName name)) d
  | written {name : String} {cache : Path} {e : Dictionary} {bytes : List UInt8} {d' : Disk}
      (hname : path.stem? = some name) (hcache : path.cache? = some cache)
      (hmissing : d.pathExists cache = false) (h : CompilesRead (d.readText path) (.ok e))
      (hbytes : e.Written bytes) (hsize : bytes.length < UInt64.size)
      (hwrite : d.write cache bytes = .ok d') : Loads d path (.ok (e.addName name)) d'

/-- Loads of files of a folder, one after the other: the names of the files and what was loaded. -/
inductive Runs (folder : Path) :
    Disk → List (String × Except DictionaryError Dictionary) → Disk → Prop
  | refl (d : Disk) : Runs folder d [] d
  | step {d d₁ d' : Disk} {name : String} {r : Except DictionaryError Dictionary}
      {steps : List (String × Except DictionaryError Dictionary)} :
      Loads d (folder.file name) r d₁ → Runs folder d₁ steps d' →
        Runs folder d ((name, r) :: steps) d'

/-! ### Compiling a file -/

/-- An entry of the file that does not compile, and its error. -/
def BrokenIn (d : Disk) (path : Path) (key : String) (error : GrammarError) : Prop :=
  ∃ text value, d.readText path = .ok text ∧ Json.ofText? text = some value ∧
    Broken value key error

/-- What a load gives that only compiles the file: its entries under its stem as the only name, or
the error that compiling it gives; if several entries do not compile, the error of any of them. -/
inductive Direct (d : Disk) (path : Path) : Except DictionaryError Dictionary → Prop
  | compiled {e : Dictionary} {name : String} (h : compileFile d path = .ok e)
      (hname : path.stem? = some name) : Direct d path (.ok ⟨e.entries, [name]⟩)
  | failed {error : DictionaryError} (h : compileFile d path = .error error) :
      Direct d path (.error error)
  | broken {key key' : String} {error error' : GrammarError}
      (h : compileFile d path = .error (.entry key error)) (hbroken : BrokenIn d path key' error') :
      Direct d path (.error (.entry key' error'))

section file

variable {d : Disk} {path : Path} {text : String} {value : Json}

theorem compileFile_of_readText (h : d.readText path = .ok text) :
    compileFile d path = ofText text := by
  unfold compileFile
  rw [h]
  rfl

theorem compileFile_of_readText_error {error : DiskError} (h : d.readText path = .error error) :
    compileFile d path = .error (.disk error) := by
  unfold compileFile
  rw [h]
  rfl

theorem ofText_of_some (h : Json.ofText? text = some value) : ofText text = ofJson value := by
  unfold ofText
  rw [h]

theorem ofText_of_none (h : Json.ofText? text = none) : ofText text = .error .notJson := by
  unfold ofText
  rw [h]

theorem compilesRead_compileFile (d : Disk) (path : Path) :
    CompilesRead (d.readText path) (compileFile d path) := by
  cases hread : d.readText path with
  | error error =>
      rw [compileFile_of_readText_error hread]
      exact .unreadable error
  | ok text =>
      rw [compileFile_of_readText hread]
      cases hvalue : Json.ofText? text with
      | none =>
          rw [ofText_of_none hvalue]
          exact .notJson hvalue
      | some value =>
          rw [ofText_of_some hvalue]
          exact .compiled hvalue (compiles_ofJson value)

theorem CompilesRead.compileFile_eq_ok {e : Dictionary}
    (h : CompilesRead (d.readText path) (.ok e)) : compileFile d path = .ok e := by
  generalize hread : d.readText path = read at h
  cases h with
  | compiled hvalue h =>
      rw [compileFile_of_readText hread, ofText_of_some hvalue]
      exact h.ofJson_eq_ok (Json.ordered_of_ofText? hvalue)

theorem CompilesRead.direct_error {error : DictionaryError}
    (h : CompilesRead (d.readText path) (.error error)) : Direct d path (.error error) := by
  generalize hread : d.readText path = read at h
  cases h with
  | unreadable error => exact .failed (compileFile_of_readText_error hread)
  | notJson hvalue =>
      refine .failed ?_
      rw [compileFile_of_readText hread, ofText_of_none hvalue]
  | compiled hvalue h =>
      have hfile := compileFile_of_readText hread
      rw [ofText_of_some hvalue] at hfile
      rcases h.ofJson_eq_error (Json.ordered_of_ofText? hvalue) with
        hjson | ⟨key, e, key', e', rfl, hbroken, hjson⟩
      · exact .failed (hfile.trans hjson)
      · exact .broken (hfile.trans hjson) ⟨_, _, hread, hvalue, hbroken⟩

theorem names_of_ofJson {e : Dictionary} (h : ofJson value = .ok e) : e.names = [] := by
  cases value with
  | object fields =>
      rw [ofJson_object] at h
      obtain ⟨compiled, -, rfl⟩ := map_eq_ok_iff.mp h
      rfl
  | _ => cases h

theorem names_of_compileFile {e : Dictionary} (h : compileFile d path = .ok e) : e.names = [] := by
  obtain ⟨text, hread, h⟩ := bind_eq_ok_iff.mp h
  unfold ofText at h
  split at h
  · exact names_of_ofJson h
  · cases h

theorem CompilesRead.direct_ok {e : Dictionary} {name : String}
    (h : CompilesRead (d.readText path) (.ok e)) (hname : path.stem? = some name) :
    Direct d path (.ok (e.addName name)) := by
  have hfile := h.compileFile_eq_ok
  have hadd : e.addName name = ⟨e.entries, [name]⟩ := by
    rw [addName, names_of_compileFile hfile]
    rfl
  rw [hadd]
  exact .compiled hfile hname

/-- The load that is executed is one of the loads that may be. -/
theorem loads_load (hsize : ∀ e ∈ (compileFile d path).toOption, e.pack.length < UInt64.size) :
    Loads d path (load d path).1 (load d path).2 := by
  have hcompiles := compilesRead_compileFile d path
  unfold load
  split
  · rename_i name cache hname hcache
    split_ifs with hexists
    · exact .cached hname hcache hexists
    · have hmissing : d.pathExists cache = false := by simpa using hexists
      split
      · rename_i e hfile
        rw [hfile] at hcompiles hsize
        dsimp only
        unfold writeCache
        split
        · rename_i d' hwrite
          exact .written hname hcache hmissing hcompiles e.written_pack (hsize e rfl) hwrite
        · exact .unwritten hname hcache hmissing hcompiles
      · rename_i error hfile
        rw [hfile] at hcompiles
        exact .failed hcache hmissing hcompiles
  · rename_i hnone
    refine .nameless ?_
    cases hcache : path.cache? with
    | none => rfl
    | some cache =>
        obtain ⟨name, hname⟩ := Path.stem?_of_cache? hcache
        exact absurd hcache (hnone name cache hname)

end file

/-! ### Runs -/

/-- The second disk is the first one with caches added for some of the named files of the folder,
each of which holds what its file compiles to on the first disk. -/
structure Serves (names : Set String) (folder : Path) (address : Disk.Address) (d d' : Disk) :
    Prop where
  grows : d.Grows ((fun name => address ++ [cacheName name]) '' names) d'
  caches : ∀ name ∈ names, d'.find? (address ++ [cacheName name]) ≠ none →
    ∃ e bytes, CompilesRead (d.readText (folder.file name)) (.ok e) ∧ e.Written bytes ∧
      bytes.length < UInt64.size ∧
      d'.find? (address ++ [cacheName name]) = some (.file bytes)

section run

variable {names : Set String} {folder : Path} {address : Disk.Address} {d d' d₁ d₂ : Disk}
variable {name : String} {r : Except DictionaryError Dictionary}

theorem Serves.refl (hnone : ∀ name ∈ names, d.find? (address ++ [cacheName name]) = none) :
    Serves names folder address d d := by
  refine ⟨.refl ?_, ?_⟩
  · rintro _ ⟨name, hname, rfl⟩
    exact hnone name hname
  · intro name hname hfind
    exact absurd (hnone name hname) hfind

theorem Serves.opens (h : Serves names folder address d d') (hopens : d.Opens folder address) :
    d'.Opens folder address :=
  h.grows.opens hopens

theorem Serves.readText_eq (h : Serves names folder address d d') (hopens : d.Opens folder address)
    (hnames : ∀ n ∈ names, IsSource n) (hname : name ∈ names) :
    d'.readText (folder.file name) = d.readText (folder.file name) := by
  have hsource := hnames name hname
  refine (hopens.leads_file hsource.isName).readText_congr
    ((h.opens hopens).leads_file hsource.isName) (h.grows.kept _ ?_)
  rintro ⟨n, hn, heq⟩
  have hcache : cacheName n = name := by simpa using heq
  exact hsource.ne_cacheName (hnames n hn) hcache.symm

/-- A cache that was added holds what its file compiles to. -/
theorem Serves.readCache_eq (h : Serves names folder address d d') (hopens : d.Opens folder address)
    (hname : name ∈ names) (hexists : d'.pathExists (folder.cacheOf name) = true) :
    ∃ e, CompilesRead (d.readText (folder.file name)) (.ok e) ∧
      readCache d' (folder.cacheOf name) = .ok e := by
  obtain ⟨hlocate, hfind⟩ := ((h.opens hopens).leads_cache name).exists_of_pathExists hexists
  obtain ⟨e, bytes, hcompiles, hwritten, hsize, hfile⟩ := h.caches name hname hfind
  have hwhole := (recovers_unpack e bytes hwritten hsize).whole []
  rw [List.append_nil] at hwhole
  refine ⟨e, hcompiles, ?_⟩
  rw [readCache_of_read (Disk.read_of_locate hlocate hfile), ofBytes, Decoder.value_of_ok hwhole]

theorem Serves.write {e : Dictionary} {bytes : List UInt8} (h : Serves names folder address d d₁)
    (hopens : d.Opens folder address) (hapart : Set.InjOn cacheName names) (hname : name ∈ names)
    (hmissing : d₁.pathExists (folder.cacheOf name) = false)
    (hcompiles : CompilesRead (d.readText (folder.file name)) (.ok e)) (hbytes : e.Written bytes)
    (hsize : bytes.length < UInt64.size) (hwrite : d₁.write (folder.cacheOf name) bytes = .ok d₂) :
    Serves names folder address d d₂ := by
  obtain ⟨-, rfl⟩ := ((h.opens hopens).leads_cache name).write_missing hmissing hwrite
  refine ⟨h.grows.put ⟨name, hname, rfl⟩ _, ?_⟩
  intro n hn hfind
  by_cases heq : n = name
  · subst heq
    exact ⟨e, bytes, hcompiles, hbytes, hsize, Disk.find?_put_self (by simp) _ _⟩
  · -- No other file has this cache, so theirs are as they were.
    have hne : address ++ [cacheName n] ≠ address ++ [cacheName name] := by
      intro hcache
      exact heq (hapart hn hname (by simpa using hcache))
    rw [Disk.find?_put_of_ne hne] at hfind ⊢
    exact h.caches n hn hfind

/-- **One load.**  It gives what compiling the file would have given at first, and adds at most a
cache that holds this. -/
theorem Serves.loads (h : Serves names folder address d d₁) (hopens : d.Opens folder address)
    (hnames : ∀ n ∈ names, IsSource n) (hapart : Set.InjOn cacheName names) (hname : name ∈ names)
    (hload : Loads d₁ (folder.file name) r d₂) :
    Serves names folder address d d₂ ∧ Direct d (folder.file name) r := by
  have hpath : (folder.file name).cache? = some (folder.cacheOf name) :=
    (hnames name hname).cache?_file
  have htext := h.readText_eq hopens hnames hname
  cases hload with
  | nameless hnone =>
      rw [hpath] at hnone
      cases hnone
  | cached hstem hcache hexists =>
      obtain rfl := Option.some.inj (hpath.symm.trans hcache)
      obtain ⟨e, hcompiles, hread⟩ := h.readCache_eq hopens hname hexists
      rw [hread]
      exact ⟨h, hcompiles.direct_ok hstem⟩
  | failed hcache hmissing hcompiles =>
      rw [htext] at hcompiles
      exact ⟨h, hcompiles.direct_error⟩
  | unwritten hstem hcache hmissing hcompiles =>
      rw [htext] at hcompiles
      exact ⟨h, hcompiles.direct_ok hstem⟩
  | written hstem hcache hmissing hcompiles hbytes hsize hwrite =>
      obtain rfl := Option.some.inj (hpath.symm.trans hcache)
      rw [htext] at hcompiles
      exact ⟨h.write hopens hapart hname hmissing hcompiles hbytes hsize hwrite,
        hcompiles.direct_ok hstem⟩

theorem Serves.runs {steps : List (String × Except DictionaryError Dictionary)}
    (h : Serves names folder address d d₁) (hopens : d.Opens folder address)
    (hnames : ∀ n ∈ names, IsSource n) (hapart : Set.InjOn cacheName names)
    (hsteps : ∀ s ∈ steps, s.1 ∈ names) (hruns : Runs folder d₁ steps d₂) :
    Serves names folder address d d₂ ∧ ∀ s ∈ steps, Direct d (folder.file s.1) s.2 := by
  induction hruns with
  | refl => exact ⟨h, by simp⟩
  | step hload _ ih =>
      obtain ⟨hname, hrest⟩ := List.forall_mem_cons.mp hsteps
      obtain ⟨h, hdirect⟩ := h.loads hopens hnames hapart hname hload
      obtain ⟨h, hdirects⟩ := ih h hrest
      exact ⟨h, List.forall_mem_cons.mpr ⟨hdirect, hdirects⟩⟩

/-- **Caches are transparent.**  In a folder without caches, whatever files with caches of their own
are loaded, how often and in which order, and whether or not their caches can be written: every load
gives what compiling the file gives, and no cache appears for a file that does not compile.  Files
whose stem is one dot or two are left out: the path of their cache leads to a folder. -/
theorem loads_transparent {steps : List (String × Except DictionaryError Dictionary)}
    (hopens : d.Opens folder address)
    (hclean : ∀ name, (splitName name).2 = some "bin" → d.find? (address ++ [name]) = none)
    (hnames : ∀ n ∈ names, IsSource n)
    (hapart : ∀ m ∈ names, ∀ n ∈ names, (folder.file m).cache? = (folder.file n).cache? → m = n)
    (hsteps : ∀ s ∈ steps, s.1 ∈ names) (hruns : Runs folder d steps d') :
    (∀ s ∈ steps, Direct d (folder.file s.1) s.2) ∧
      ∀ name ∈ names, ∀ error cache, compileFile d (folder.file name) = .error error →
        (folder.file name).cache? = some cache → d'.pathExists cache = false := by
  have hstart : Serves names folder address d d :=
    .refl fun name hname => hclean _ (hnames name hname).extension_cacheName
  have hinj : Set.InjOn cacheName names := by
    intro m hm n hn heq
    exact hapart m hm n hn (((hnames m hm).cache?_eq_iff (hnames n hn)).mpr heq)
  obtain ⟨hserves, hdirect⟩ := hstart.runs hopens hnames hinj hsteps hruns
  refine ⟨hdirect, ?_⟩
  intro name hname error cache herror hcache
  obtain rfl := Option.some.inj ((hnames name hname).cache?_file.symm.trans hcache)
  rw [← Bool.not_eq_true]
  intro hexists
  -- The cache would hold what the file compiles to.
  obtain ⟨e, hcompiles, -⟩ := hserves.readCache_eq hopens hname hexists
  rw [hcompiles.compileFile_eq_ok] at herror
  cases herror

/-- A file is loaded, then one that does not compile, then the first one again. -/
theorem loads_transparent_twice :
    let folder : Path := ⟨false, []⟩
    let bytes (text : String) : Disk.Entry := .file text.toUTF8.data.toList
    let d : Disk :=
      ⟨["home"], [(["home"], .folder), (["home", "en.json"], bytes "\x7b\"a\":\"x\"\x7d"),
        (["home", "no.json"], bytes "[")], by decide⟩
    let first := load d (folder.file "en.json")
    let second := load first.2 (folder.file "no.json")
    let third := load second.2 (folder.file "en.json")
    let steps := [("en.json", first.1), ("no.json", second.1), ("en.json", third.1)]
    let names : Set String := {"en.json", "no.json"}
    d.Opens folder ["home"] ∧
      (∀ name, (splitName name).2 = some "bin" → d.find? (["home"] ++ [name]) = none) ∧
      (∀ n ∈ names, IsSource n) ∧
      (∀ m ∈ names, ∀ n ∈ names, (folder.file m).cache? = (folder.file n).cache? → m = n) ∧
      (∀ s ∈ steps, s.1 ∈ names) ∧ Runs folder d steps third.2 ∧
      second.2.pathExists ⟨false, ["en.bin"]⟩ = true ∧ Direct d (folder.file "en.json") third.1 ∧
      third.2.pathExists ⟨false, ["no.bin"]⟩ = false := by
  intro folder bytes d first second third steps names
  have hopens : d.Opens folder ["home"] := by
    constructor <;> decide +kernel
  have hclean : ∀ name, (splitName name).2 = some "bin" →
      d.find? (["home"] ++ [name]) = none := by
    intro name hname
    have hen : name ≠ "en.json" := by
      rintro rfl
      exact absurd hname (by decide +kernel)
    have hno : name ≠ "no.json" := by
      rintro rfl
      exact absurd hname (by decide +kernel)
    simp [Disk.find?, d, List.lookup_cons, beq_eq_false_iff_ne.mpr hen,
      beq_eq_false_iff_ne.mpr hno]
  have hnames : ∀ n ∈ names, IsSource n := by
    rintro n (rfl | rfl) <;> exact Path.isSource_of_json (by decide +kernel) (by decide +kernel)
  have hapart : ∀ m ∈ names, ∀ n ∈ names,
      (folder.file m).cache? = (folder.file n).cache? → m = n := by
    rintro m (rfl | rfl) n (rfl | rfl) <;> decide +kernel
  have hsteps : ∀ s ∈ steps, s.1 ∈ names := by
    simp [steps, names]
  have hruns : Runs folder d steps third.2 :=
    .step (loads_load (by decide +kernel)) (.step (loads_load (by decide +kernel))
      (.step (loads_load (by decide +kernel)) (.refl _)))
  have hexists : second.2.pathExists ⟨false, ["en.bin"]⟩ = true := by decide +kernel
  have herror : compileFile d (folder.file "no.json") = .error .notJson := by decide +kernel
  have hcache : (folder.file "no.json").cache? = some ⟨false, ["no.bin"]⟩ := by decide +kernel
  obtain ⟨hdirect, hmissing⟩ := loads_transparent hopens hclean hnames hapart hsteps hruns
  refine ⟨hopens, hclean, hnames, hapart, hsteps, hruns, hexists, ?_, ?_⟩
  · clear_value third
    exact hdirect ("en.json", third.1) (.tail _ (.tail _ (.head _)))
  · exact hmissing "no.json" (.inr rfl) .notJson ⟨false, ["no.bin"]⟩ herror hcache

/-- The cache of a file whose stem is a dot is the folder it lies in, so that the file is not
loaded, although it compiles and no cache is there. -/
theorem not_transparent_dot :
    let folder : Path := ⟨false, []⟩
    let disk : Disk :=
      ⟨["home"], [(["home"], .folder),
        (["home", "..json"], .file "\x7b\"a\":\"x\"\x7d".toUTF8.data.toList)], by decide⟩
    (splitName "..json").2 = some "json" ∧ disk.Opens folder ["home"] ∧
      disk.fileNames ["home"] = ["..json"] ∧
      (folder.file "..json").cache? = some ⟨false, ["."]⟩ ∧
      compileFile disk (folder.file "..json") =
        .ok ⟨.ofList [("a", ⟨.ofList [("main", [.literal "x"])], "main"⟩)], []⟩ ∧
      (load disk (folder.file "..json")).1 = .error (.disk .isFolder) := by
  unfold Disk.Opens
  decide +kernel

end run

end Dictionary
end Typeahead
