import Mathlib.Data.List.DropRight
import Typeahead.Dictionary.Load

/-! # The names of caches

The path of a file in a folder is that of the folder with one more segment, and so is the path of
its cache (`Path.IsSource.cache?_file`).  The name of a cache is made by cutting twice: the stem of
the file is cut at its last dot once more before `bin` is put in place of what followed
(`Path.cacheName`).  So two files share a cache exactly if their stems agree up to their last dots
(`Path.IsSource.cache?_eq_iff`).  All this holds of stems that are names: where a stem is one dot or
two, the cache is no file of the folder. -/

namespace Typeahead
namespace Path

/-! ### Names -/

/-- The segment names a file or folder: it neither stays where it is nor leads upwards. -/
def IsName (segment : String) : Prop := isIdle segment = false ∧ segment ≠ ".."

instance (segment : String) : Decidable (IsName segment) :=
  inferInstanceAs (Decidable (_ ∧ _))

theorem IsName.ne_empty {segment : String} (h : IsName segment) : segment ≠ "" := by
  rintro rfl
  exact absurd h (by decide)

theorem isName_append {stem ending : String} (h : 2 < ending.length) : IsName (stem ++ ending) := by
  have hne : ∀ s : String, s.length ≤ 2 → stem ++ ending ≠ s := by
    rintro s hs rfl
    rw [String.length_append] at hs
    omega
  refine ⟨?_, hne ".." (by decide)⟩
  simp [isIdle, hne "" (by decide), hne "." (by decide)]

theorem isName_of_extension {name extension : String}
    (h : (splitName name).2 = some extension) (hne : extension ≠ "") : IsName name := by
  refine ⟨?_, ?_⟩
  · rw [isIdle, Bool.or_eq_false_iff, decide_eq_false_iff_not, decide_eq_false_iff_not]
    constructor
    · rintro rfl
      rw [show splitName "" = ("", none) by decide +kernel] at h
      cases h
    · rintro rfl
      rw [show splitName "." = (".", none) by decide +kernel] at h
      cases h
  · rintro rfl
    rw [show splitName ".." = (".", some "") by decide +kernel] at h
    exact hne (Option.some.inj h).symm

theorem splitName_append {stem extension : String} (hstem : stem ≠ "")
    (hdot : '.' ∉ extension.toList) :
    splitName (stem ++ "." ++ extension) = (stem, some extension) := by
  have hpieces : (stem ++ "." ++ extension).toList.splitOn '.' =
      stem.toList.splitOn '.' ++ [extension.toList] := by
    rw [String.toList_append, String.toList_append, List.append_assoc]
    show List.splitOnP _ (stem.toList ++ '.' :: extension.toList) = _
    rw [List.splitOnP_append_cons _ _ (by rfl)]
    exact congrArg _ (List.splitOn_eq_singleton hdot)
  unfold splitName
  simp only [hpieces, List.dropLast_concat, List.intercalate_splitOn, List.getLast?_concat]
  rw [if_neg (by simpa using hstem)]
  simp

theorem splitName_fst_ne_empty {name : String} (h : name ≠ "") : (splitName name).1 ≠ "" := by
  unfold splitName
  simp only
  split_ifs with hstem
  · exact h
  · simpa using hstem

/-! ### Paths of files in a folder -/

section folder

variable (folder : Path)

/-- The path of a file in a folder. -/
def file (name : String) : Path := folder.join ⟨false, [name]⟩

/-- The segments of the path of a file in a folder, but for its name. -/
def inside : List String :=
  if folder.segments.getLast? = some "" then folder.segments.dropLast else folder.segments

/-- The segments of the path of a cache in a folder, but for its name. -/
def beside : List String :=
  if settle folder.inside = [] ∧ !folder.absolute ∧ folder.inside.head? = some "." then ["."]
  else settle folder.inside

theorem file_eq (name : String) :
    folder.file name = ⟨folder.absolute, folder.inside ++ [name]⟩ := by
  unfold file join inside
  simp only [Bool.false_eq_true, if_false]
  split <;> rfl

theorem getLast?_beside : folder.beside.getLast? ≠ some "" := by
  unfold beside
  split_ifs with h
  · decide
  · intro hlast
    have hne : folder.inside.rdropWhile isIdle ≠ [] := by
      intro hnil
      rw [show settle folder.inside = [] from hnil] at hlast
      cases hlast
    have hidle := List.rdropWhile_last_not isIdle folder.inside hne
    rw [show settle folder.inside = folder.inside.rdropWhile isIdle from rfl,
      List.getLast?_eq_some_getLast hne, Option.some.injEq] at hlast
    rw [hlast] at hidle
    exact hidle (by decide)

end folder

section name

variable {absolute : Bool} {segments : List String} {name : String}

theorem settled_of_name (hname : IsName name) :
    (⟨absolute, segments ++ [name]⟩ : Path).settled = segments ++ [name] :=
  List.rdropWhile_concat_neg isIdle segments name (by simp [hname.1])

theorem stem?_of_name (hname : IsName name) :
    (⟨absolute, segments ++ [name]⟩ : Path).stem? = some (splitName name).1 := by
  unfold stem? fileName?
  rw [settled_of_name hname, List.getLast?_concat]
  simp [hname.2]

theorem withExtension_of_name (hname : IsName name) (extension : String) :
    (⟨absolute, segments ++ [name]⟩ : Path).withExtension extension =
      ⟨absolute, segments ++ [(splitName name).1 ++ "." ++ extension]⟩ := by
  unfold withExtension
  rw [stem?_of_name hname, settled_of_name hname, List.dropLast_concat]

end name

/-! ### Paths of caches -/

/-- The name of the cache of a file. -/
def cacheName (name : String) : String := (splitName (splitName name).1).1 ++ ".bin"

theorem isName_cacheName (name : String) : IsName (cacheName name) := isName_append (by decide)

theorem cacheName_eq_iff {m n : String} :
    cacheName m = cacheName n ↔ (splitName (splitName m).1).1 = (splitName (splitName n).1).1 :=
  String.append_left_inj ".bin"

/-- The name of a file whose cache lies beside it: it is no cache itself, and its stem is a name. -/
structure IsSource (name : String) : Prop where
  isName : IsName name
  isName_stem : IsName (splitName name).1
  not_cache : (splitName name).2 ≠ some "bin"

theorem isSource_of_json {name : String} (h : (splitName name).2 = some "json")
    (hstem : IsName (splitName name).1) : IsSource name :=
  ⟨isName_of_extension h (by decide), hstem, by rw [h]; decide⟩

section file

variable {folder : Path} {m n name : String}

theorem IsSource.extension_cacheName (h : IsSource name) :
    (splitName (cacheName name)).2 = some "bin" := by
  have hne := splitName_fst_ne_empty h.isName_stem.ne_empty
  rw [cacheName, show ".bin" = "." ++ "bin" by decide, ← String.append_assoc,
    splitName_append hne (by decide)]

theorem IsSource.ne_cacheName (hn : IsSource n) (hm : IsSource m) : n ≠ cacheName m := by
  rintro rfl
  exact hn.not_cache hm.extension_cacheName

/-- The path of the cache of a file in a folder. -/
def cacheOf (folder : Path) (name : String) : Path :=
  ⟨folder.absolute, folder.beside ++ [cacheName name]⟩

theorem stem?_file (hname : IsName name) :
    (folder.file name).stem? = some (splitName name).1 := by
  rw [file_eq, stem?_of_name hname]

theorem parent_file (hname : IsName name) :
    (folder.file name).parent = ⟨folder.absolute, folder.beside⟩ := by
  unfold parent beside
  rw [file_eq, settled_of_name hname, List.dropLast_concat]
  dsimp only
  split_ifs <;> rfl

/-- The cache of a file lies beside it. -/
theorem IsSource.cache?_file (h : IsSource name) :
    (folder.file name).cache? = some (folder.cacheOf name) := by
  unfold cache?
  rw [stem?_file h.isName, parent_file h.isName, Option.map_some]
  unfold join
  rw [if_neg (by simp), if_neg folder.getLast?_beside, withExtension_of_name h.isName_stem,
    cacheOf, cacheName, String.append_assoc]
  rfl

/-- Two files share a cache exactly if their stems are equal up to their last dots. -/
theorem IsSource.cache?_eq_iff (hm : IsSource m) (hn : IsSource n) :
    (folder.file m).cache? = (folder.file n).cache? ↔ cacheName m = cacheName n := by
  rw [hm.cache?_file, hn.cache?_file]
  simp [cacheOf]

end file

end Path
end Typeahead
