import Typeahead.Proofs.Serving
import Typeahead.Proofs.Transparency

/-! # Loads that stay in their folder

The files of named dictionaries are looked for along paths that their names make up, and a name may
hold slashes and dots.  A name is plain if its path only goes on from the folder and its stem is a
name (`Dictionary.Plain`); a name without slashes is plain unless it is one dot or two
(`Dictionary.plain_iff`).  What plain names load, and what they leave on the disk, is decided by
what stands in the folder: two disks that are alike there (`Disk.Alike`) are still alike there after
a load, which gives the same on both (`Dictionary.Plain.load_alike`), and nothing changes elsewhere
(`Dictionary.Plain.load_find?`).  Other names lead elsewhere. -/

namespace Typeahead

/-! ### Paths and the folders they go through -/

namespace Path

theorem ofText_of_no_slash {text : String} (hne : text ≠ "") (h : '/' ∉ text.toList) :
    ofText text = ⟨false, [text]⟩ := by
  have hchars : text.toList ≠ [] := by simpa using hne
  unfold ofText
  split
  · rename_i rest heq
    simp [heq] at h
  · dsimp only
    rw [if_neg hchars, List.splitOn_eq_singleton h, List.map_singleton, String.ofList_toList]

/-- The folder, with idle segments behind it. -/
def through (folder : Path) (idle : List String) : Path :=
  ⟨folder.absolute, folder.inside ++ idle ++ [""]⟩

variable (folder : Path) (idle : List String)

theorem inside_through : (folder.through idle).inside = folder.inside ++ idle := by
  have hlast : (folder.through idle).segments.getLast? = some "" := List.getLast?_concat ..
  rw [inside, if_pos hlast]
  exact List.dropLast_concat

theorem join_eq_file (name : String) :
    folder.join ⟨false, idle ++ [name]⟩ = (folder.through idle).file name := by
  rw [file_eq, inside_through, List.append_assoc]
  unfold join inside through
  simp only [Bool.false_eq_true, if_false]
  split <;> rfl

end Path

namespace Disk

open Typeahead.Path (isIdle)

variable {d d' : Disk} {folder p : Path} {address b : Address} {segments idle : List String}
variable {name : String}

theorem walk_append_idle (hidle : ∀ s ∈ idle, isIdle s = true)
    (hfolder : d.find? address = some .folder) :
    d.walk b (segments ++ idle) = .ok address ↔ d.walk b segments = .ok address := by
  refine ⟨walk_of_walk_append hidle, fun h => ?_⟩
  rw [walk_append, h]
  exact walk_of_idle hfolder hidle

theorem opens_iff_inside :
    d.Opens folder address ↔
      d.walk (d.start folder) folder.inside = .ok address ∧ d.find? address = some .folder := by
  refine ⟨fun h => ⟨h.walk_inside, h.2⟩, fun ⟨hwalk, hfolder⟩ => ⟨?_, hfolder⟩⟩
  unfold Path.inside at hwalk
  split_ifs at hwalk with hlast
  · rw [← List.dropLast_append_getLast? _ hlast]
    exact (walk_append_idle (by decide) hfolder).mpr hwalk
  · exact hwalk

theorem opens_through_iff (hidle : ∀ s ∈ idle, isIdle s = true) :
    d.Opens (folder.through idle) address ↔ d.Opens folder address := by
  rw [opens_iff_inside, opens_iff_inside, Path.inside_through]
  exact and_congr_left fun hfolder => walk_append_idle hidle hfolder

theorem opens_of_beside (hwalk : d.walk (d.start folder) folder.beside = .ok address)
    (hfolder : d.find? address = some .folder) : d.Opens folder address := by
  have hinside : folder.inside =
      Path.settle folder.inside ++ folder.inside.rtakeWhile isIdle :=
    List.rdropWhile_append_rtakeWhile.symm
  have hidle : ∀ s ∈ folder.inside.rtakeWhile isIdle, isIdle s = true :=
    fun s hs => List.mem_rtakeWhile_imp hs
  refine opens_iff_inside.mpr ⟨?_, hfolder⟩
  rw [hinside, walk_append_idle hidle hfolder]
  unfold Path.beside at hwalk
  split_ifs at hwalk with hdot
  · rw [hdot.1, walk, eq_of_walk_idle (by decide) hwalk]
  · exact hwalk

theorem exists_of_locate {absolute : Bool}
    (h : d.locate ⟨absolute, segments ++ [name]⟩ = .ok b) :
    ∃ address, d.walk (if absolute then [] else d.home) segments = .ok address ∧
      d.find? address = some .folder := by
  unfold locate at h
  split_ifs at h
  rw [walk_append] at h
  obtain ⟨address, hwalk, hname⟩ := bind_eq_ok_iff.mp h
  refine ⟨address, hwalk, ?_⟩
  rw [walk] at hname
  split at hname
  · cases hname
  · cases hname
  · assumption

section closed

variable (hclosed : ∀ address, ¬ d.Opens folder address)

include hclosed

theorem pathExists_cacheOf_of_closed (name : String) :
    d.pathExists (folder.cacheOf name) = false := by
  unfold pathExists
  cases hlocate : d.locate (folder.cacheOf name) with
  | error error => rfl
  | ok b =>
      obtain ⟨address, hwalk, hfolder⟩ := exists_of_locate hlocate
      exact absurd (opens_of_beside hwalk hfolder) (hclosed address)

theorem exists_readText_error_of_closed (name : String) :
    ∃ error, d.readText (folder.file name) = .error error := by
  cases hlocate : d.locate (folder.file name) with
  | error error =>
      refine ⟨error, ?_⟩
      unfold readText read
      rw [hlocate]
      rfl
  | ok b =>
      rw [Path.file_eq] at hlocate
      obtain ⟨address, hwalk, hfolder⟩ := exists_of_locate hlocate
      exact absurd (opens_iff_inside.mpr ⟨hwalk, hfolder⟩) (hclosed address)

end closed

/-! ### Disks that are alike in a folder -/

/-- The folder stands at the same address of two disks, and the same stands in it. -/
structure Alike (folder : Path) (address : Address) (d d' : Disk) : Prop where
  opens : d.Opens folder address
  opens' : d'.Opens folder address
  same : ∀ name, d'.find? (address ++ [name]) = d.find? (address ++ [name])

theorem Alike.refl (h : d.Opens folder address) : Alike folder address d d := ⟨h, h, fun _ => rfl⟩

theorem alike_through_iff (hidle : ∀ s ∈ idle, isIdle s = true) :
    Alike (folder.through idle) address d d' ↔ Alike folder address d d' := by
  constructor
  · rintro ⟨h, h', hsame⟩
    exact ⟨(opens_through_iff hidle).mp h, (opens_through_iff hidle).mp h', hsame⟩
  · rintro ⟨h, h', hsame⟩
    exact ⟨(opens_through_iff hidle).mpr h, (opens_through_iff hidle).mpr h', hsame⟩

theorem Alike.put (h : Alike folder address d d') (hnone : d.find? (address ++ [name]) = none)
    (entry : Entry) :
    Alike folder address (d.put (address ++ [name]) entry) (d'.put (address ++ [name]) entry) := by
  refine ⟨(grows_put hnone entry).opens h.opens, ?_, fun other => ?_⟩
  · refine (grows_put ?_ entry).opens h.opens'
    rw [h.same, hnone]
  · by_cases hother : address ++ [other] = address ++ [name]
    · rw [hother, find?_put_self (by simp), find?_put_self (by simp)]
    · rw [find?_put_of_ne hother, find?_put_of_ne hother, h.same]

end Disk

namespace Dictionary

open Typeahead.Disk (Alike)
open Typeahead.Path (IsName IsSource cacheName isIdle splitName)

/-! ### Plain names -/

/-- The path of a named dictionary's file only goes on from the folder, along idle segments and one
name, and the stem of that is a name, too. -/
def Plain (name : String) : Prop :=
  let path := Path.ofText (name ++ ".json")
  path.absolute = false ∧ (∀ s ∈ path.segments.dropLast, isIdle s = true) ∧
    ∀ stem ∈ path.stem?, IsName stem

instance (name : String) : Decidable (Plain name) := inferInstanceAs (Decidable (_ ∧ _ ∧ _))

variable {d d' : Disk} {folder : Path} {address b : Disk.Address} {name : String}

theorem exists_ofText (name : String) :
    ∃ absolute above lead, Path.ofText (name ++ ".json") =
      ⟨absolute, above ++ [lead ++ ".json"]⟩ := by
  have hsplit : ∀ cs : List Char, ∃ above lead,
      ((cs ++ ".json".toList).splitOn '/').map String.ofList = above ++ [lead ++ ".json"] := by
    intro cs
    have hjson : '/' ∉ ".json".toList := by decide
    obtain ⟨above, last, h⟩ := exists_splitOn_append hjson cs
    refine ⟨above.map String.ofList, String.ofList last, ?_⟩
    rw [h, List.map_append, List.map_singleton, String.ofList_append, String.ofList_toList]
  have hne : ∀ cs : List Char, cs ++ ".json".toList ≠ [] :=
    fun cs => List.append_ne_nil_of_right_ne_nil cs (by decide)
  unfold Path.ofText
  rw [String.toList_append]
  split
  · rename_i rest heq
    rcases List.append_eq_cons_iff.mp heq with ⟨-, hjson⟩ | ⟨cs, -, rfl⟩
    · have hmem : '/' ∈ ".json".toList := hjson ▸ List.mem_cons_self
      exact absurd hmem (by decide)
    · obtain ⟨above, lead, h⟩ := hsplit cs
      refine ⟨true, above, lead, ?_⟩
      dsimp only
      rw [if_neg (hne cs), h]
  · obtain ⟨above, lead, h⟩ := hsplit name.toList
    refine ⟨false, above, lead, ?_⟩
    dsimp only
    rw [if_neg (hne name.toList), h]

theorem isName_json (lead : String) : IsName (lead ++ ".json") := Path.isName_append (by decide)

theorem splitName_json {lead : String} (h : lead ≠ "") :
    splitName (lead ++ ".json") = (lead, some "json") := by
  rw [show ".json" = "." ++ "json" by decide, ← String.append_assoc,
    Path.splitName_append h (by decide)]

theorem isSource_json {lead : String} (hstem : IsName (splitName (lead ++ ".json")).1) :
    IsSource (lead ++ ".json") := by
  refine ⟨isName_json lead, hstem, ?_⟩
  by_cases hlead : lead = ""
  · rw [hlead]
    decide +kernel
  · simp [splitName_json hlead]

theorem plain_iff (hslash : '/' ∉ name.toList) : Plain name ↔ name ≠ "." ∧ name ≠ ".." := by
  have htext : Path.ofText (name ++ ".json") = ⟨false, [] ++ [name ++ ".json"]⟩ := by
    refine Path.ofText_of_no_slash (by simp) ?_
    rw [String.toList_append, List.mem_append, not_or]
    exact ⟨hslash, by decide⟩
  unfold Plain
  simp only [htext, Path.stem?_of_name (isName_json name)]
  by_cases hname : name = ""
  · subst hname
    decide +kernel
  · rw [splitName_json hname]
    simp [IsName, isIdle, hname]

/-- The path of a plain name is that of a file, behind idle segments, whose cache is beside it. -/
theorem Plain.exists_file (h : Plain name) (folder : Path) :
    ∃ idle base, fileOf folder name = (folder.through idle).file base ∧
      (∀ s ∈ idle, isIdle s = true) ∧ IsSource base := by
  obtain ⟨absolute, idle, lead, htext⟩ := exists_ofText name
  obtain ⟨rfl, hidle, hstem⟩ : absolute = false ∧ (∀ s ∈ idle, isIdle s = true) ∧
      IsName (splitName (lead ++ ".json")).1 := by
    unfold Plain at h
    simpa only [htext, List.dropLast_concat, Path.stem?_of_name (isName_json lead),
      Option.mem_def, Option.some.injEq, forall_eq'] using h
  exact ⟨idle, lead ++ ".json", by rw [fileOf, htext, Path.join_eq_file], hidle,
    isSource_json hstem⟩

/-! ### One load -/

theorem alike_writeCache (h : Alike folder address d d')
    (hmissing : d.pathExists (folder.cacheOf name) = false) (e : Dictionary) :
    Alike folder address (writeCache d (folder.cacheOf name) e)
      (writeCache d' (folder.cacheOf name) e) := by
  have hleads := h.opens.leads_cache name
  have hwrite := hleads.write_eq e.pack
  have hwrite' := (h.opens'.leads_cache name).write_eq e.pack
  rw [h.same] at hwrite'
  unfold writeCache
  rw [hwrite']
  split_ifs at hwrite ⊢
  · rw [hwrite]
    exact h
  · rw [hwrite]
    exact h
  · rw [hwrite]
    exact h
  · rw [hwrite]
    exact h.put (hleads.write_missing hmissing hwrite).1 _

theorem alike_load (hname : IsSource name) (h : Alike folder address d d') :
    Alike folder address (load d (folder.file name)).2 (load d' (folder.file name)).2 := by
  have hexists := pathExists_cacheOf_congr h.opens h.opens' (h.same (cacheName name))
  have hcompile := compileFile_congr h.opens h.opens' hname.isName (h.same name)
  cases hcase : d.pathExists (folder.cacheOf name) with
  | true =>
      rw [load_of_exists hname hcase, load_of_exists hname (hexists.trans hcase)]
      exact h
  | false =>
      cases hfile : compileFile d (folder.file name) with
      | ok e =>
          rw [load_of_compiles hname hcase hfile,
            load_of_compiles hname (hexists.trans hcase) (hcompile.trans hfile)]
          exact alike_writeCache h hcase e
      | error error =>
          rw [load_of_fails hname hcase hfile,
            load_of_fails hname (hexists.trans hcase) (hcompile.trans hfile)]
          exact h

namespace Plain

variable (hplain : Plain name)

include hplain

theorem leads (h : d.Opens folder address) :
    ∃ base cache, d.Leads (fileOf folder name) address base ∧
      (fileOf folder name).cache? = some cache ∧ d.Leads cache address (cacheName base) := by
  obtain ⟨idle, base, hfile, hidle, hsource⟩ := hplain.exists_file folder
  have hopens := (Disk.opens_through_iff hidle).mpr h
  rw [hfile]
  exact ⟨base, _, hopens.leads_file hsource.isName, hsource.cache?_file, hopens.leads_cache base⟩

theorem load_alike (h : Alike folder address d d') :
    (load d' (fileOf folder name)).1 = (load d (fileOf folder name)).1 ∧
      Alike folder address (load d (fileOf folder name)).2 (load d' (fileOf folder name)).2 := by
  obtain ⟨idle, base, hfile, hidle, hsource⟩ := hplain.exists_file folder
  rw [hfile, ← Disk.alike_through_iff hidle]
  rw [← Disk.alike_through_iff hidle] at h
  exact ⟨load_congr h.opens h.opens' hsource (h.same _) (h.same _), alike_load hsource h⟩

theorem load_find? (h : d.Opens folder address) (hb : ∀ n, b ≠ address ++ [n]) :
    (load d (fileOf folder name)).2.find? b = d.find? b := by
  obtain ⟨idle, base, hfile, hidle, hsource⟩ := hplain.exists_file folder
  rw [hfile]
  rcases load_disk hsource ((Disk.opens_through_iff hidle).mpr h) with hsame | hgrows
  · rw [hsame]
  · exact hgrows.kept b (hb _)

theorem load_of_closed (hclosed : ∀ address, ¬ d.Opens folder address) :
    ∃ error, load d (fileOf folder name) = (.error (.disk error), d) := by
  obtain ⟨idle, base, hfile, hidle, hsource⟩ := hplain.exists_file folder
  have hclosed' : ∀ address, ¬ d.Opens (folder.through idle) address :=
    fun address h => hclosed address ((Disk.opens_through_iff hidle).mp h)
  obtain ⟨error, hread⟩ := Disk.exists_readText_error_of_closed hclosed' base
  have hmissing := Disk.pathExists_cacheOf_of_closed hclosed' base
  refine ⟨error, ?_⟩
  rw [hfile, load_of_fails hsource hmissing (compileFile_of_readText_error hread)]

end Plain

/-! ### All loads of a list -/

section names

variable {names : List String} (hplain : ∀ name ∈ names, Plain name)

include hplain

theorem mergeNamed_alike (h : Alike folder address d d') (e : Dictionary) :
    (mergeNamed folder d' e names).1 = (mergeNamed folder d e names).1 ∧
      Alike folder address (mergeNamed folder d e names).2 (mergeNamed folder d' e names).2 := by
  induction names generalizing d d' e with
  | nil => exact ⟨rfl, h⟩
  | cons name names ih =>
      obtain ⟨hname, hnames⟩ := List.forall_mem_cons.mp hplain
      obtain ⟨hresult, halike⟩ := hname.load_alike h
      rw [mergeNamed, mergeNamed, ← fileOf]
      generalize load d (fileOf folder name) = loaded at hresult halike ⊢
      generalize load d' (fileOf folder name) = loaded' at hresult halike ⊢
      obtain ⟨result, d₁⟩ := loaded
      obtain ⟨result', d₁'⟩ := loaded'
      obtain rfl : result' = result := hresult
      cases result' with
      | ok part => exact ih hnames halike (e.merge part)
      | error error => exact ⟨rfl, halike⟩

theorem mergeNamed_find? (h : d.Opens folder address) (hb : ∀ n, b ≠ address ++ [n])
    (e : Dictionary) : (mergeNamed folder d e names).2.find? b = d.find? b := by
  induction names generalizing d e with
  | nil => rfl
  | cons name names ih =>
      obtain ⟨hname, hnames⟩ := List.forall_mem_cons.mp hplain
      have hopens := (hname.load_alike (.refl h)).2.opens
      rw [← hname.load_find? h hb, mergeNamed, ← fileOf]
      generalize load d (fileOf folder name) = loaded at hopens ⊢
      obtain ⟨result, d₁⟩ := loaded
      cases result with
      | ok part => exact ih hnames hopens (e.merge part)
      | error error => rfl

end names

/-- What the dictionaries of a folder, which stands at the address, are loaded from and what their
caches are written to, stands in that folder. -/
structure StaysIn (folder : Path) (text : String) (d : Disk) (address : Disk.Address) : Prop where
  /-- The paths of the files and of their caches lead into the folder. -/
  leads : ∀ name ∈ namesOf text, ∃ base cache, d.Leads (fileOf folder name) address base ∧
    (fileOf folder name).cache? = some cache ∧ d.Leads cache address (cacheName base)
  /-- Nothing is written elsewhere. -/
  kept : ∀ b, (∀ n, b ≠ address ++ [n]) → (loadNamed d folder text).2.find? b = d.find? b
  /-- Nothing that stands elsewhere matters. -/
  alike : ∀ d', Alike folder address d d' →
    (loadNamed d' folder text).1 = (loadNamed d folder text).1 ∧
      Alike folder address (loadNamed d folder text).2 (loadNamed d' folder text).2

/-- **Loading stays in the folder.**  If the names in a list are plain, then whatever the disk
holds, only what stands in the folder is read or written while they are loaded.  If there is no such
folder, then nothing is written, and the first name is reported as one that the disk refuses. -/
theorem loadNamed_stays {text : String} (hplain : ∀ name ∈ namesOf text, Plain name)
    (folder : Path) (d : Disk) :
    (∀ address, d.Opens folder address → StaysIn folder text d address) ∧
      ((∀ address, ¬ d.Opens folder address) → (loadNamed d folder text).2 = d ∧
        ∀ name ∈ (namesOf text).head?, ∃ error,
          (loadNamed d folder text).1 = .error ⟨name, .disk error⟩) := by
  constructor
  · intro address hopens
    exact ⟨fun name hname => (hplain name hname).leads hopens,
      fun b hb => mergeNamed_find? hplain hopens hb empty,
      fun d' halike => mergeNamed_alike hplain halike empty⟩
  · intro hclosed
    unfold loadNamed
    cases hnames : namesOf text with
    | nil => exact ⟨rfl, fun name h => by cases h⟩
    | cons name names =>
        rw [hnames] at hplain
        obtain ⟨error, hload⟩ := (hplain name List.mem_cons_self).load_of_closed hclosed
        rw [mergeNamed, ← fileOf, hload]
        refine ⟨rfl, ?_⟩
        rintro _ ⟨⟩
        exact ⟨error, rfl⟩

/-- Two languages are loaded from their folder. -/
theorem loadNamed_stays_languages :
    let folder : Path := ⟨false, ["data"]⟩
    let bytes (text : String) : Disk.Entry := .file text.toUTF8.data.toList
    let disk : Disk :=
      ⟨["home"], [(["home"], .folder), (["home", "data"], .folder),
        (["home", "data", "en.json"], bytes "\x7b\"a\":\"x\"\x7d"),
        (["home", "data", "fr.json"], bytes "\x7b\"b\":\"x\"\x7d")], by decide⟩
    (∀ name ∈ namesOf "en, ./fr", Plain name) ∧ disk.Opens folder ["home", "data"] ∧
      StaysIn folder "en, ./fr" disk ["home", "data"] := by
  intro folder bytes disk
  have hplain : ∀ name ∈ namesOf "en, ./fr", Plain name := by decide +kernel
  have hopens : disk.Opens folder ["home", "data"] := by
    constructor <;> decide +kernel
  exact ⟨hplain, hopens, (loadNamed_stays hplain folder disk).1 _ hopens⟩

/-- A file above the folder is loaded, and its cache is written beside it, and so is the cache of a
file in the folder whose stem is a dot. -/
theorem not_stays_above :
    let folder : Path := ⟨false, ["data"]⟩
    let bytes (text : String) : Disk.Entry := .file text.toUTF8.data.toList
    let disk : Disk :=
      ⟨["home"], [(["home"], .folder), (["home", "secret.json"], bytes "\x7b\"b\":\"x\"\x7d"),
        (["home", "data"], .folder),
        (["home", "data", "..json"], bytes "\x7b\"a\":\"x\"\x7d")], by decide⟩
    disk.Opens folder ["home", "data"] ∧
      ∀ text ∈ ["../secret", "/home/secret", "."], ¬ StaysIn folder text disk ["home", "data"] := by
  intro folder bytes disk
  have hsecret : ∀ text ∈ ["../secret", "/home/secret"],
      (loadNamed disk folder text).2.find? ["home", "secret.bin"] ≠
        disk.find? ["home", "secret.bin"] := by decide +kernel
  have hdot : (loadNamed disk folder ".").2.find? ["home", "data.bin"] ≠
      disk.find? ["home", "data.bin"] := by decide +kernel
  refine ⟨by constructor <;> decide +kernel, ?_⟩
  simp only [List.forall_mem_cons, List.not_mem_nil, false_implies, implies_true, and_true]
    at hsecret ⊢
  exact ⟨fun h => hsecret.1 (h.kept _ (by simp)), fun h => hsecret.2 (h.kept _ (by simp)),
    fun h => hdot (h.kept _ (by simp))⟩

end Dictionary
end Typeahead
