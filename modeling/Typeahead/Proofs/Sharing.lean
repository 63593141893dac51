import Typeahead.Proofs.Caching
import Typeahead.Proofs.Growth

/-! # Loads that share a folder

A load in a folder depends on what stands in the place of the file and of its cache
(`Dictionary.load_congr`), and it changes nothing but the cache, which it may add
(`Dictionary.load_disk`).  So a load is not disturbed by that of a file with another cache.  Files
with different names may share a cache, though: exactly those whose stems agree up to their last
dots do, and what is loaded for one of them may then have been compiled from another. -/

namespace Typeahead
namespace Dictionary

open Typeahead.Path (IsName IsSource cacheName splitName)

variable {d d' : Disk} {folder : Path} {address : Disk.Address} {name : String}

section cases

variable (h : IsSource name)

include h

theorem load_of_exists (hexists : d.pathExists (folder.cacheOf name) = true) :
    load d (folder.file name) =
      ((·.addName (splitName name).1) <$> readCache d (folder.cacheOf name), d) := by
  unfold load
  simp only [Path.stem?_file h.isName, h.cache?_file, hexists, if_true]

theorem load_of_compiles {e : Dictionary} (hmissing : d.pathExists (folder.cacheOf name) = false)
    (hfile : compileFile d (folder.file name) = .ok e) :
    load d (folder.file name) =
      (.ok (e.addName (splitName name).1), writeCache d (folder.cacheOf name) e) := by
  unfold load
  simp only [Path.stem?_file h.isName, h.cache?_file, hmissing, Bool.false_eq_true, if_false, hfile]

theorem load_of_fails {error : DictionaryError}
    (hmissing : d.pathExists (folder.cacheOf name) = false)
    (hfile : compileFile d (folder.file name) = .error error) :
    load d (folder.file name) = (.error error, d) := by
  unfold load
  simp only [Path.stem?_file h.isName, h.cache?_file, hmissing, Bool.false_eq_true, if_false, hfile]

end cases

section congruence

variable (hd : d.Opens folder address) (hd' : d'.Opens folder address)

include hd hd'

theorem pathExists_cacheOf_congr
    (hcache : d'.find? (address ++ [cacheName name]) = d.find? (address ++ [cacheName name])) :
    d'.pathExists (folder.cacheOf name) = d.pathExists (folder.cacheOf name) :=
  (hd.leads_cache name).pathExists_congr (hd'.leads_cache name) hcache

theorem compileFile_congr (hname : IsName name)
    (hfile : d'.find? (address ++ [name]) = d.find? (address ++ [name])) :
    compileFile d' (folder.file name) = compileFile d (folder.file name) := by
  rw [compileFile, compileFile,
    (hd.leads_file hname).readText_congr (hd'.leads_file hname) hfile]

/-- Two disks on which the same stands in the place of a file and of its cache are the same for
loading it. -/
theorem load_congr (h : IsSource name)
    (hfile : d'.find? (address ++ [name]) = d.find? (address ++ [name]))
    (hcache : d'.find? (address ++ [cacheName name]) = d.find? (address ++ [cacheName name])) :
    (load d' (folder.file name)).1 = (load d (folder.file name)).1 := by
  have hexists := pathExists_cacheOf_congr hd hd' hcache
  have hcompile := compileFile_congr hd hd' h.isName hfile
  have hread : readCache d' (folder.cacheOf name) = readCache d (folder.cacheOf name) := by
    rw [readCache, readCache, (hd.leads_cache name).read_congr (hd'.leads_cache name) hcache]
  cases hcase : d.pathExists (folder.cacheOf name) with
  | true =>
      rw [hcase] at hexists
      rw [load_of_exists h hcase, load_of_exists h hexists, hread]
  | false =>
      rw [hcase] at hexists
      cases hresult : compileFile d (folder.file name) with
      | ok e =>
          rw [hresult] at hcompile
          rw [load_of_compiles h hcase hresult, load_of_compiles h hexists hcompile]
      | error error =>
          rw [hresult] at hcompile
          rw [load_of_fails h hcase hresult, load_of_fails h hexists hcompile]

end congruence

/-- Writing a cache that is not there adds it, unless it cannot be written. -/
theorem writeCache_missing (hd : d.Opens folder address)
    (hmissing : d.pathExists (folder.cacheOf name) = false) (e : Dictionary) :
    writeCache d (folder.cacheOf name) e = d ∨
      d.Grows {address ++ [cacheName name]} (writeCache d (folder.cacheOf name) e) := by
  unfold writeCache
  cases hwrite : d.write (folder.cacheOf name) e.pack with
  | error error => exact .inl rfl
  | ok d' =>
      obtain ⟨hnone, rfl⟩ := (hd.leads_cache name).write_missing hmissing hwrite
      exact .inr (Disk.grows_put hnone _)

/-- A load leaves the disk as it is or adds the cache of the file. -/
theorem load_disk (h : IsSource name) (hd : d.Opens folder address) :
    (load d (folder.file name)).2 = d ∨
      d.Grows {address ++ [cacheName name]} (load d (folder.file name)).2 := by
  cases hcase : d.pathExists (folder.cacheOf name) with
  | true =>
      rw [load_of_exists h hcase]
      exact .inl rfl
  | false =>
      cases hfile : compileFile d (folder.file name) with
      | ok e =>
          rw [load_of_compiles h hcase hfile]
          exact writeCache_missing hd hcase e
      | error error =>
          rw [load_of_fails h hcase hfile]
          exact .inl rfl

/-- **Which files share a cache.**  Two JSON files of a folder share a cache exactly if their stems
agree up to their last dots.  If they do not, then what a load of one of them gives does not depend
on whether the other was loaded before.  Stems of one dot or two are left out: they are no names. -/
theorem shares_cache_iff {m n : String} (hm : (splitName m).2 = some "json")
    (hn : (splitName n).2 = some "json") (hm' : IsName (splitName m).1)
    (hn' : IsName (splitName n).1) :
    ((folder.file m).cache? = (folder.file n).cache? ↔
        (splitName (splitName m).1).1 = (splitName (splitName n).1).1) ∧
      ((folder.file m).cache? ≠ (folder.file n).cache? → d.Opens folder address →
        (load (load d (folder.file m)).2 (folder.file n)).1 = (load d (folder.file n)).1) := by
  have hm := Path.isSource_of_json hm hm'
  have hn := Path.isSource_of_json hn hn'
  rw [Ne, hm.cache?_eq_iff hn]
  refine ⟨Path.cacheName_eq_iff, ?_⟩
  intro hne hopens
  rcases load_disk hm hopens with hsame | hgrows
  · rw [hsame]
  · have happend : ∀ {s : String}, s ≠ cacheName m →
        address ++ [s] ∉ ({address ++ [cacheName m]} : Set Disk.Address) := by
      intro s hs heq
      exact hs (by simpa using heq)
    refine load_congr hopens (hgrows.opens hopens) hn ?_ ?_
    · exact hgrows.kept _ (happend (hn.ne_cacheName hm))
    · exact hgrows.kept _ (happend (Ne.symm hne))

/-- Two languages have caches of their own. -/
theorem shares_cache_iff_languages :
    let folder : Path := ⟨false, []⟩
    let bytes (text : String) : Disk.Entry := .file text.toUTF8.data.toList
    let disk : Disk :=
      ⟨["home"], [(["home"], .folder), (["home", "en.json"], bytes "\x7b\"a\":\"x\"\x7d"),
        (["home", "fr.json"], bytes "\x7b\"b\":\"x\"\x7d")], by decide⟩
    (splitName "en.json").2 = some "json" ∧ (splitName "fr.json").2 = some "json" ∧
      IsName (splitName "en.json").1 ∧ IsName (splitName "fr.json").1 ∧
      (folder.file "en.json").cache? ≠ (folder.file "fr.json").cache? ∧
      disk.Opens folder ["home"] ∧
      (load (load disk (folder.file "en.json")).2 (folder.file "fr.json")).1 =
        (load disk (folder.file "fr.json")).1 := by
  intro folder bytes disk
  have hen : (splitName "en.json").2 = some "json" := by decide +kernel
  have hfr : (splitName "fr.json").2 = some "json" := by decide +kernel
  have hen' : IsName (splitName "en.json").1 := by decide +kernel
  have hfr' : IsName (splitName "fr.json").1 := by decide +kernel
  have hne : (folder.file "en.json").cache? ≠ (folder.file "fr.json").cache? := by decide +kernel
  have hopens : disk.Opens folder ["home"] := by
    constructor <;> decide +kernel
  exact ⟨hen, hfr, hen', hfr', hne, hopens, (shares_cache_iff hen hfr hen' hfr').2 hne hopens⟩

/-- Two versions of a dictionary share a cache, so that the first one that is loaded is what a load
of the other gives. -/
theorem shares_cache_versions :
    let folder : Path := ⟨false, []⟩
    let word : Grammar String := ⟨.ofList [("main", [.literal "x"])], "main"⟩
    let bytes (text : String) : Disk.Entry := .file text.toUTF8.data.toList
    let disk : Disk :=
      ⟨["home"], [(["home"], .folder), (["home", "en.v1.json"], bytes "\x7b\"a\":\"x\"\x7d"),
        (["home", "en.v2.json"], bytes "\x7b\"b\":\"x\",\"c\":\"x\"\x7d")], by decide⟩
    "en.v1.json" ≠ "en.v2.json" ∧
      (splitName "en.v1.json").2 = some "json" ∧ (splitName "en.v2.json").2 = some "json" ∧
      (folder.file "en.v1.json").cache? = (folder.file "en.v2.json").cache? ∧
      (load disk (folder.file "en.v2.json")).1 =
        .ok ⟨.ofList [("b", word), ("c", word)], ["en.v2"]⟩ ∧
      (load (load disk (folder.file "en.v1.json")).2 (folder.file "en.v2.json")).1 =
        .ok ⟨.ofList [("a", word)], ["en.v2"]⟩ := by
  decide +kernel

end Dictionary
end Typeahead
