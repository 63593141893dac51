import Typeahead.Proofs.ByteOrder
import Typeahead.Proofs.Growth

/-! # What a listing holds

A name is cut into stem and extension at its last dot, and it is the only name with that stem and
that extension (`Path.splitName_eq_iff`).  So no two files of a folder are listed under one stem
(`Disk.exists_list`), and a stem is listed exactly if its file is in the folder and the path to that
file is not too long (`Disk.mem_list_iff`).  That path is the one of the folder with the name behind
it (`Path.text_file`).  Where a folder is reached along a path that leaves no room for a name, its
files are left out (`Disk.list_of_long_path`). -/

namespace Typeahead

/-! ### Stems and extensions -/

namespace Path

theorem eq_of_splitName {name stem extension : String}
    (h : splitName name = (stem, some extension)) :
    name = stem ++ "." ++ extension ∧ '.' ∉ extension.toList := by
  have hname : ['.'].intercalate (name.toList.splitOn '.') = name.toList :=
    List.intercalate_splitOn '.'
  have hlast := getLast?_splitOn '.' name.toList
  have hdot : '.' ∉ name.toList.rtakeWhile (· ≠ '.') := by
    intro hmem
    simpa using List.mem_rtakeWhile_imp hmem
  unfold splitName at h
  simp only [hlast, Option.map_some] at h
  rw [← List.dropLast_append_getLast? _ hlast] at hname
  generalize (name.toList.splitOn '.').dropLast = above at h hname
  generalize name.toList.rtakeWhile (· ≠ '.') = last at h hname hdot
  split_ifs at h with hempty
  · cases h
  obtain ⟨rfl, rfl⟩ : String.ofList _ = stem ∧ String.ofList last = extension := by simpa using h
  have habove : above ≠ [] := by
    rintro rfl
    exact hempty rfl
  refine ⟨?_, by rwa [String.toList_ofList]⟩
  rw [intercalate_concat habove] at hname
  apply String.toList_inj.mp
  simp [← hname]

theorem splitName_eq_iff {name stem extension : String} :
    splitName name = (stem, some extension) ↔
      stem ≠ "" ∧ '.' ∉ extension.toList ∧ name = stem ++ "." ++ extension := by
  constructor
  · intro h
    obtain ⟨hname, hdot⟩ := eq_of_splitName h
    refine ⟨?_, hdot, hname⟩
    have hne : name ≠ "" := by simp [hname]
    have hstem := splitName_fst_ne_empty hne
    rwa [h] at hstem
  · rintro ⟨hstem, hdot, rfl⟩
    exact splitName_append hstem hdot

/-! ### The path to a file -/

/-- Behind the path of a folder stands the name of the file, with a slash between them unless the
path ends in one or is empty. -/
theorem text_file (folder : Path) (name : String) :
    (folder.file name).text = folder.text ++ name ∨
      (folder.file name).text = folder.text ++ "/" ++ name := by
  have hconcat : ∀ {above : List String}, above ≠ [] → ∀ last : String,
      "/".intercalate (above ++ [last]) = "/".intercalate above ++ "/" ++ last := by
    intro above habove last
    rw [String.intercalate_append_of_ne_nil habove (List.cons_ne_nil last []),
      String.intercalate_singleton]
  obtain ⟨absolute, segments⟩ := folder
  rw [file_eq]
  unfold inside text
  dsimp only
  generalize (if absolute = true then "/" else "") = root
  split_ifs with hlast
  · left
    obtain ⟨above, rfl⟩ : ∃ above, segments = above ++ [""] :=
      ⟨_, (List.dropLast_append_getLast? _ hlast).symm⟩
    rw [List.dropLast_concat]
    rcases eq_or_ne above [] with rfl | habove
    · simp
    · rw [hconcat habove, hconcat habove, String.append_empty]
      simp only [String.append_assoc]
  · rcases eq_or_ne segments [] with rfl | hsegments
    · left
      simp
    · right
      rw [hconcat hsegments]
      simp only [String.append_assoc]

theorem size_text_file (folder : Path) (name : String) :
    folder.text.utf8ByteSize + name.utf8ByteSize ≤ (folder.file name).text.utf8ByteSize ∧
      (folder.file name).text.utf8ByteSize ≤ folder.text.utf8ByteSize + 1 + name.utf8ByteSize := by
  have hslash : "/".utf8ByteSize = 1 := by decide
  rcases text_file folder name with h | h <;>
    simp only [h, String.utf8ByteSize_append] <;>
    omega

/-! ### Paths of dots

A path of dots leads nowhere, and it can be as long as one likes. -/

/-- The path of a dot and `n` more of them. -/
def dots (n : ℕ) : Path := ⟨false, List.replicate (n + 1) "."⟩

theorem text_dots_zero : (dots 0).text = "." := by decide

theorem text_dots_succ (n : ℕ) : (dots (n + 1)).text = "./" ++ (dots n).text := by
  unfold dots text
  rw [List.replicate_succ, List.replicate_succ, String.intercalate_cons_cons]
  simp [← List.replicate_succ]

theorem size_dots (n : ℕ) : (dots n).text.utf8ByteSize = 2 * n + 1 := by
  induction n with
  | zero =>
      rw [text_dots_zero]
      decide
  | succ n ih =>
      rw [text_dots_succ, String.utf8ByteSize_append, ih, show "./".utf8ByteSize = 2 by decide]
      omega

theorem mem_dots {c : Char} {n : ℕ} (h : c ∈ (dots n).text.toList) : c = '.' ∨ c = '/' := by
  induction n with
  | zero =>
      rw [text_dots_zero] at h
      exact .inl (by simpa using h)
  | succ n ih =>
      rw [text_dots_succ, String.toList_append, List.mem_append] at h
      rcases h with h | h
      · simpa using h
      · exact ih h

end Path

namespace Disk

open Typeahead.Path (IsName splitName)

/-! ### Names on a disk -/

/-- A name that a file system can hold. -/
structure IsFileName (name : String) : Prop where
  isName : IsName name
  no_null : '\x00' ∉ name.toList
  short : name.utf8ByteSize ≤ maxName

instance (name : String) : Decidable (IsFileName name) :=
  decidable_of_iff (IsName name ∧ '\x00' ∉ name.toList ∧ name.utf8ByteSize ≤ maxName)
    ⟨fun h => ⟨h.1, h.2.1, h.2.2⟩, fun h => ⟨h.isName, h.no_null, h.short⟩⟩

/-- Every name on the disk is one that a file system can hold. -/
def Named (d : Disk) : Prop := ∀ e ∈ d.entries, ∀ name ∈ e.1, IsFileName name

instance (d : Disk) : Decidable d.Named := inferInstanceAs (Decidable (∀ e ∈ d.entries, _))

/-- The folder at the address directly contains a file of the name. -/
def HasFile (d : Disk) (address : Address) (name : String) : Prop :=
  ∃ bytes, d.find? (address ++ [name]) = some (.file bytes)

section files

variable {d : Disk} {address : Address} {name : String}

theorem mem_entries_concat {entry : Entry} :
    (address ++ [name], entry) ∈ d.entries ↔ d.find? (address ++ [name]) = some entry := by
  unfold find?
  rw [if_neg (by simp)]
  exact Table.mem_iff_lookup d.distinct

theorem Named.isFileName (hnamed : d.Named) (h : d.HasFile address name) : IsFileName name := by
  obtain ⟨bytes, h⟩ := h
  exact hnamed _ (mem_entries_concat.mpr h) name (by simp)

theorem mem_fileNames : name ∈ d.fileNames address ↔ d.HasFile address name := by
  unfold fileNames HasFile
  simp only [List.mem_filterMap, ← mem_entries_concat]
  constructor
  · rintro ⟨⟨a, entry⟩, hentry, hname⟩
    cases entry with
    | folder => cases hname
    | file bytes =>
        dsimp only at hname
        split_ifs at hname with hfolder
        rw [← hfolder, List.dropLast_append_getLast? _ hname]
        exact ⟨bytes, hentry⟩
  · rintro ⟨bytes, hentry⟩
    exact ⟨_, hentry, by simp⟩

theorem nodup_fileNames (d : Disk) (address : Address) : (d.fileNames address).Nodup := by
  refine (List.pairwise_map.mp d.distinct).filterMap _ ?_
  rintro ⟨a, _ | _⟩ ⟨b, _ | _⟩ hne m hm n hn rfl
  · dsimp only at hm hn hne
    split_ifs at hm hn with ha hb
    apply hne
    rw [← List.dropLast_append_getLast? _ hm, ← List.dropLast_append_getLast? _ hn, ha, hb]
  all_goals first
    | cases hm
    | cases hn

end files

/-! ### Listing -/

theorem stemWith?_eq_some_iff {stem extension name : String} :
    stemWith? extension name = some stem ↔ splitName name = (stem, some extension) := by
  unfold stemWith?
  split_ifs with h
  · simp [Prod.ext_iff, h]
  · simp [Prod.ext_iff, h]

theorem pairwise_lt_mergeSort {l : List String} (h : l.Nodup) :
    (l.mergeSort fun s t => !decide (t < s)).Pairwise (· < ·) := by
  have hle : (fun s t : String => !decide (t < s)) = fun s t => decide (s ≤ t) := by
    funext s t
    rw [← decide_not, decide_eq_decide, String.not_lt]
  rw [hle]
  have htrans : ∀ s t u : String, decide (s ≤ t) = true → decide (t ≤ u) = true →
      decide (s ≤ u) = true := by
    simp only [decide_eq_true_eq]
    exact fun s t u => String.le_trans
  have htotal : ∀ s t : String, (decide (s ≤ t) || decide (t ≤ s)) = true := by
    simpa using String.le_total
  have hsorted := List.pairwise_mergeSort htrans htotal l
  have hnodup := h.perm (List.mergeSort_perm l fun s t => decide (s ≤ t)).symm
  refine hsorted.imp₂ ?_ hnodup
  intro s t hst hne
  rw [decide_eq_true_eq] at hst
  exact String.not_le.mp fun hts => hne (String.le_antisymm hst hts)

section list

variable {d : Disk} {folder : Path} {address : Address} {stem extension name : String}

theorem locate_eq_ok_iff {p : Path} :
    d.locate p = .ok address ↔ '\x00' ∉ p.text.toList ∧ p.text ≠ "" ∧
      p.text.utf8ByteSize ≤ maxPath ∧ d.walk (d.start p) p.segments = .ok address := by
  unfold locate
  split_ifs with hnull hempty hlong <;> simp_all

variable (hlocate : d.locate folder = .ok address) (hfolder : d.find? address = some .folder)

include hlocate hfolder

/-- The path to a file of a folder finds it unless that path is too long. -/
theorem pathExists_file (hname : IsFileName name) (hfile : d.HasFile address name) :
    d.pathExists (folder.file name) = true ↔
      (folder.file name).text.utf8ByteSize ≤ maxPath := by
  obtain ⟨hnull, -, -, hwalk⟩ := locate_eq_ok_iff.mp hlocate
  have hopens : d.Opens folder address := ⟨hwalk, hfolder⟩
  have hnull : (folder.file name).text.toList.contains '\x00' = false := by
    rcases Path.text_file folder name with h | h <;> simp [h, hnull, hname.no_null]
  obtain ⟨bytes, hfile⟩ := hfile
  unfold pathExists
  rw [(hopens.leads_file hname.isName).locate_eq, hnull, hfile]
  simp only [Bool.false_eq_true, if_false, Nat.not_lt.mpr hname.short, or_false, reduceCtorEq]
  split_ifs with hlong
  · simpa using hlong
  · simpa using hlong

theorem list_eq : d.list folder extension =
    .ok ((((d.fileNames address).filter fun name => d.pathExists (folder.file name)).filterMap
      (stemWith? extension)).mergeSort fun s t => !decide (t < s)) := by
  unfold list
  simp only [hlocate, hfolder, bind, Except.bind]
  rfl

theorem exists_list (extension : String) :
    ∃ stems, d.list folder extension = .ok stems ∧ stems.Pairwise (· < ·) := by
  refine ⟨_, list_eq hlocate hfolder, pairwise_lt_mergeSort ?_⟩
  refine List.Pairwise.filterMap _ ?_ ((nodup_fileNames d address).filter _)
  intro m n hne s hm t hn hst
  obtain ⟨hm, -⟩ := Path.eq_of_splitName (stemWith?_eq_some_iff.mp hm)
  obtain ⟨hn, -⟩ := Path.eq_of_splitName (stemWith?_eq_some_iff.mp hn)
  exact hne (by rw [hm, hn, hst])

/-- A stem is listed if its file is in the folder and the path to the file is not too long. -/
theorem mem_list_iff (hnamed : d.Named) (hdot : '.' ∉ extension.toList) {stems : List String}
    (hlist : d.list folder extension = .ok stems) :
    stem ∈ stems ↔ stem ≠ "" ∧ d.HasFile address (stem ++ "." ++ extension) ∧
      (folder.file (stem ++ "." ++ extension)).text.utf8ByteSize ≤ maxPath := by
  rw [list_eq hlocate hfolder] at hlist
  rw [← Except.ok.inj hlist, List.mem_mergeSort, List.mem_filterMap]
  simp only [List.mem_filter, mem_fileNames, stemWith?_eq_some_iff, Path.splitName_eq_iff]
  constructor
  · rintro ⟨name, ⟨hfile, hexists⟩, hstem, -, rfl⟩
    have hname := hnamed.isFileName hfile
    exact ⟨hstem, hfile, (pathExists_file hlocate hfolder hname hfile).mp hexists⟩
  · rintro ⟨hstem, hfile, hshort⟩
    have hname := hnamed.isFileName hfile
    exact ⟨_, ⟨hfile, (pathExists_file hlocate hfolder hname hfile).mpr hshort⟩, hstem, hdot, rfl⟩

/-- A folder whose path leaves no room for a name behind it is listed as if it were empty. -/
theorem list_of_long_path (hnamed : d.Named) (hdot : '.' ∉ extension.toList)
    (hlong : maxPath ≤ folder.text.utf8ByteSize + 1 + extension.utf8ByteSize) :
    d.list folder extension = .ok [] := by
  obtain ⟨stems, hlist, -⟩ := exists_list hlocate hfolder extension
  suffices hnone : stems = [] by rw [hlist, hnone]
  refine List.eq_nil_iff_forall_not_mem.mpr fun stem hmem => ?_
  obtain ⟨hstem, -, hshort⟩ := (mem_list_iff hlocate hfolder hnamed hdot hlist).mp hmem
  have hsize := (Path.size_text_file folder (stem ++ "." ++ extension)).1
  have hpos : stem.utf8ByteSize ≠ 0 := by simpa using hstem
  rw [String.utf8ByteSize_append, String.utf8ByteSize_append,
    show ".".utf8ByteSize = 1 by decide] at hsize
  omega

/-- **A listing holds the files of a folder.**  The stems are in the order of their bytes, each of
them once.  They are the stems of the files that are directly in the folder and have the extension,
as far as the path to such a file is not too long.  If there is room for every name behind the path
of the folder, all of these files are listed. -/
theorem list_iff_file (hnamed : d.Named) (hdot : '.' ∉ extension.toList) :
    ∃ stems, d.list folder extension = .ok stems ∧
      (stems.Pairwise fun s t => bytesOf s < bytesOf t) ∧
      (∀ stem, stem ∈ stems ↔ stem ≠ "" ∧ d.HasFile address (stem ++ "." ++ extension) ∧
        (folder.file (stem ++ "." ++ extension)).text.utf8ByteSize ≤ maxPath) ∧
      (folder.text.utf8ByteSize + 1 + maxName ≤ maxPath → ∀ stem, stem ∈ stems ↔
        stem ≠ "" ∧ d.HasFile address (stem ++ "." ++ extension)) := by
  obtain ⟨stems, hlist, hsorted⟩ := exists_list hlocate hfolder extension
  refine ⟨stems, hlist, hsorted.imp bytes_lt_bytes,
    fun _ => mem_list_iff hlocate hfolder hnamed hdot hlist, ?_⟩
  intro hroom stem
  rw [mem_list_iff hlocate hfolder hnamed hdot hlist]
  refine and_congr_right fun _ => and_iff_left_of_imp fun hfile => ?_
  have hsize := (Path.size_text_file folder (stem ++ "." ++ extension)).2
  have hshort := (hnamed.isFileName hfile).short
  omega

end list

/-- A file without a stem, a folder that is named like a file and the file in it are not listed. -/
theorem list_iff_file_languages :
    let folder : Path := ⟨false, ["."]⟩
    let text : Entry := .file "\x7b\x7d".toUTF8.data.toList
    let disk : Disk :=
      ⟨["home"], [(["home"], .folder), (["home", "fr.json"], text), (["home", "en.json"], text),
        (["home", ".json"], text), (["home", "old.json"], .folder),
        (["home", "old.json", "de.json"], text)], by decide⟩
    disk.Named ∧ disk.locate folder = .ok ["home"] ∧ disk.find? ["home"] = some .folder ∧
      '.' ∉ "json".toList ∧ folder.text.utf8ByteSize + 1 + maxName ≤ maxPath ∧
      disk.list folder "json" = .ok ["en", "fr"] ∧
      bytesOf "en" < bytesOf "fr" ∧
      ∀ stem, stem ∈ ["en", "fr"] ↔
        stem ≠ "" ∧ disk.HasFile ["home"] (stem ++ "." ++ "json") := by
  intro folder text disk
  have hnamed : disk.Named := by decide +kernel
  have hlocate : disk.locate folder = .ok ["home"] := by decide +kernel
  have hfolder : disk.find? ["home"] = some .folder := by decide +kernel
  have hdot : '.' ∉ "json".toList := by decide
  have hroom : folder.text.utf8ByteSize + 1 + maxName ≤ maxPath := by decide +kernel
  have hlist : disk.list folder "json" = .ok ["en", "fr"] := by
    have hstems : (((disk.fileNames ["home"]).filter fun name =>
        disk.pathExists (folder.file name)).filterMap (stemWith? "json")) = ["fr", "en"] := by
      decide +kernel
    have hperm : (["fr", "en"].mergeSort fun s t => !decide (t < s)).Perm ["en", "fr"] :=
      (List.mergeSort_perm _ _).trans (.swap "en" "fr" [])
    have hsorted := pairwise_lt_mergeSort (show ["fr", "en"].Nodup by decide)
    rw [list_eq hlocate hfolder, hstems, hperm.eq_of_pairwise ?_ hsorted (by decide +kernel)]
    exact fun s t _ _ hst hts => absurd hts (String.lt_asymm hst)
  obtain ⟨stems, hstems, hsorted, -, hexact⟩ := list_iff_file hlocate hfolder hnamed hdot
  obtain rfl : stems = ["en", "fr"] := Except.ok.inj (hstems.symm.trans hlist)
  exact ⟨hnamed, hlocate, hfolder, hdot, hroom, hlist, by simpa using hsorted, hexact hroom⟩

/-- A path of dots leads to the folder but leaves no room for the name of its file. -/
theorem list_leaves_out_long_path :
    let folder : Path := Path.dots 2046
    let disk : Disk :=
      ⟨["home"], [(["home"], .folder),
        (["home", "a.json"], .file "\x7b\x7d".toUTF8.data.toList)], by decide⟩
    disk.Named ∧ disk.locate folder = .ok ["home"] ∧ disk.find? ["home"] = some .folder ∧
      '.' ∉ "json".toList ∧ disk.HasFile ["home"] ("a" ++ "." ++ "json") ∧
      disk.list folder "json" = .ok [] := by
  intro folder disk
  have hsize : folder.text.utf8ByteSize = 4093 := Path.size_dots 2046
  have hnamed : disk.Named := by decide +kernel
  have hfolder : disk.find? ["home"] = some .folder := by decide +kernel
  have hdot : '.' ∉ "json".toList := by decide
  have hlocate : disk.locate folder = .ok ["home"] := by
    refine locate_eq_ok_iff.mpr ⟨?_, ?_, ?_, ?_⟩
    · intro hnull
      simpa using Path.mem_dots hnull
    · intro hempty
      rw [hempty] at hsize
      cases hsize
    · rw [hsize]
      decide
    · refine walk_of_idle hfolder fun s hs => ?_
      rw [List.eq_of_mem_replicate hs]
      decide
  have hlong : maxPath ≤ folder.text.utf8ByteSize + 1 + "json".utf8ByteSize := by
    rw [hsize]
    decide
  exact ⟨hnamed, hlocate, hfolder, hdot, ⟨_, rfl⟩,
    list_of_long_path hlocate hfolder hnamed hdot hlong⟩

end Disk
end Typeahead
