import Mathlib.Data.List.Basic
import Typeahead.Service

/-! # What is served

Only a request to load dictionaries changes a site, and `Service.Loading` lists what can come of
one.  Each exchange of a request for an answer is therefore lawful (`Service.Exchange.Lawful`): what
is served is replaced as a whole by what the request loads, or it is left as it was.  Along a run of
requests, what is served is thus always what was loaded last, whatever was asked or failed since
(`Service.LastLoaded`). -/

namespace Typeahead

/-! ### Loading one after the other -/

namespace Dictionary

variable {folder : Path} {disk disk' : Disk} {d e : Dictionary} {parts : List Dictionary}
variable {name : String} {names : List String}

/-- The path of the file of a named dictionary. -/
def fileOf (folder : Path) (name : String) : Path := folder.join (.ofText (name ++ ".json"))

/-- Named dictionaries of a folder are loaded one after the other, each from the disk that the one
before it left. -/
inductive LoadsInTurn (folder : Path) : Disk → List String → List Dictionary → Disk → Prop
  | nil (disk : Disk) : LoadsInTurn folder disk [] [] disk
  | cons {disk disk₁ disk₂ : Disk} {name : String} {names : List String} {part : Dictionary}
      {parts : List Dictionary} (h : load disk (fileOf folder name) = (.ok part, disk₁))
      (hrest : LoadsInTurn folder disk₁ names parts disk₂) :
      LoadsInTurn folder disk (name :: names) (part :: parts) disk₂

/-- The dictionary that dictionaries are merged to, one after the other. -/
def mergeAll (parts : List Dictionary) : Dictionary := parts.foldl merge empty

theorem names_foldl_merge (parts : List Dictionary) (d : Dictionary) :
    (parts.foldl merge d).names = d.names ++ parts.flatMap Dictionary.names := by
  induction parts generalizing d with
  | nil => exact (List.append_nil _).symm
  | cons part parts ih =>
      rw [List.foldl_cons, ih, List.flatMap_cons, merge, List.append_assoc]

theorem names_mergeAll (parts : List Dictionary) :
    (mergeAll parts).names = parts.flatMap Dictionary.names :=
  names_foldl_merge parts empty

namespace LoadsInTurn

theorem mergeNamed_append (h : LoadsInTurn folder disk names parts disk') (rest : List String) :
    mergeNamed folder disk d (names ++ rest) =
      mergeNamed folder disk' (parts.foldl merge d) rest := by
  induction h generalizing d with
  | nil => rfl
  | cons h _ ih =>
      rw [fileOf] at h
      rw [List.cons_append, mergeNamed, h]
      exact ih

theorem mergeNamed_of_fails {rest : List String} {error : DictionaryError} {disk'' : Disk}
    (h : LoadsInTurn folder disk names parts disk')
    (hfails : load disk' (fileOf folder name) = (.error error, disk'')) :
    mergeNamed folder disk d (names ++ name :: rest) = (.error ⟨name, error⟩, disk'') := by
  rw [fileOf] at hfails
  rw [h.mergeNamed_append, mergeNamed, hfails]

end LoadsInTurn

theorem exists_loadsInTurn (h : mergeNamed folder disk d names = (.ok e, disk')) :
    ∃ parts, LoadsInTurn folder disk names parts disk' ∧ e = parts.foldl merge d := by
  induction names generalizing disk d with
  | nil =>
      rw [mergeNamed] at h
      obtain ⟨hd, rfl⟩ := Prod.mk.inj h
      exact ⟨[], .nil _, (Except.ok.inj hd).symm⟩
  | cons name names ih =>
      rw [mergeNamed] at h
      rcases hload : load disk (folder.join (.ofText (name ++ ".json"))) with ⟨error | part, disk₁⟩
      · rw [hload] at h
        cases h
      · rw [hload] at h
        obtain ⟨parts, hparts, rfl⟩ := ih h
        exact ⟨part :: parts, .cons hload hparts, rfl⟩

theorem loadNamed_of_fails {text : String} {rest : List String} {error : DictionaryError}
    {disk'' : Disk} (hnames : namesOf text = names ++ name :: rest)
    (h : LoadsInTurn folder disk names parts disk')
    (hfails : load disk' (fileOf folder name) = (.error error, disk'')) :
    loadNamed disk folder text = (.error ⟨name, error⟩, disk'') := by
  rw [loadNamed, hnames, h.mergeNamed_of_fails hfails]

theorem trim_ne_of_namesOf {text : String} {rest : List String}
    (hnames : namesOf (trim text) = names ++ name :: rest) : trim text ≠ "" := by
  intro hblank
  rw [hblank, show namesOf "" = [] from by decide] at hnames
  exact List.append_ne_nil_of_right_ne_nil names (List.cons_ne_nil name rest) hnames.symm

end Dictionary

namespace Request

/-- The request asks for dictionaries to be loaded. -/
def AsksToLoad (r : Request) : Prop := r.method = "PUT" ∧ r.path = "/v1/load_dictionaries"

/-- The request asks for the names of the dictionaries that are loaded. -/
def AsksForLoaded (r : Request) : Prop := r.method = "GET" ∧ r.path = "/v1/loaded_dictionaries"

/-- The request names dictionaries by the given text, or leaves their names out. -/
def Names (r : Request) (names : Option String) : Prop := optional? r.query "names" = some names

theorem Names.unique {r : Request} {names names' : Option String} (h : r.Names names)
    (h' : r.Names names') : names = names' :=
  Option.some.inj (h.symm.trans h')

theorem Names.text_unique {r : Request} {text text' : String} (h : r.Names (some text))
    (h' : r.Names (some text')) : text = text' :=
  Option.some.inj (h.unique h')

end Request

namespace Service

/-! ### Single requests -/

variable {site : Site} {r : Request} {draws : Draws}

/-- What comes of a request to load dictionaries: the answer, and the site after it. -/
inductive Loading (site : Site) (r : Request) : Answer → Site → Prop
  /-- No text names dictionaries, or only a blank one. -/
  | refused {answer : Answer} (hstatus : answer.status = 400)
      (h : ∀ names, r.Names (some names) → trim names = "") : Loading site r answer site
  | loaded {names : String} {d : Dictionary} {disk : Disk} (h : r.Names (some names))
      (hsolid : trim names ≠ "")
      (hload : Dictionary.loadNamed site.disk site.folder (trim names) = (.ok d, disk)) :
      Loading site r .loaded ⟨d, site.folder, disk⟩
  | failed {names : String} {error : LoadError} {disk : Disk} (h : r.Names (some names))
      (hsolid : trim names ≠ "")
      (hload : Dictionary.loadNamed site.disk site.folder (trim names) = (.error error, disk)) :
      Loading site r (.loadFailed error) { site with disk }

theorem loading_of_names {names : Option String} (h : r.Names names) :
    Loading site r (loadNamed site names).1 (loadNamed site names).2 := by
  cases names with
  | none => exact .refused rfl fun names h' => by cases h.unique h'
  | some names =>
      unfold loadNamed Site.load
      dsimp only
      split_ifs with hblank
      · refine .refused rfl fun names' h' => ?_
        obtain rfl := h.text_unique h'
        exact hblank
      · rcases hload : Dictionary.loadNamed site.disk site.folder (trim names) with
          ⟨error | d, disk⟩
        · exact .failed h hblank hload
        · exact .loaded h hblank hload

theorem handle_load (draws : Draws) (h : r.AsksToLoad) :
    Loading site r (handle draws site r).1 (handle draws site r).2 := by
  obtain ⟨method, path, query, body⟩ := r
  obtain ⟨rfl, rfl⟩ := h
  unfold handle
  dsimp only
  cases hnames : Request.optional? query "names" with
  | none =>
      refine .refused rfl fun names h => ?_
      rw [Request.Names, hnames] at h
      cases h
  | some names => exact loading_of_names hnames

theorem handle_of_not_load (h : ¬ r.AsksToLoad) : (handle draws site r).2 = site := by
  unfold handle
  split
  case h_6 hmethod hpath => exact absurd ⟨hmethod, hpath⟩ h
  all_goals rfl

theorem handle_loaded (h : r.AsksForLoaded) :
    handle draws site r = (.texts site.dictionary.names, site) := by
  obtain ⟨method, path, query, body⟩ := r
  obtain ⟨rfl, rfl⟩ := h
  rfl

/-! ### Exchanges -/

/-- A request and its answer, with the site before and after. -/
structure Exchange where
  before : Site
  request : Request
  answer : Answer
  after : Site

/-- The exchange in which a site answers a request. -/
def exchange (draws : Draws) (site : Site) (r : Request) : Exchange :=
  ⟨site, r, (handle draws site r).1, (handle draws site r).2⟩

namespace Exchange

/-- Dictionaries are asked for and loaded. -/
def Loads (e : Exchange) : Prop := e.request.AsksToLoad ∧ e.answer.status = 200

/-- The dictionaries that the request names yield `d`, with what is on the disk before it. -/
def Yields (e : Exchange) (d : Dictionary) : Prop :=
  ∃ names, e.request.Names (some names) ∧ trim names ≠ "" ∧
    (Dictionary.loadNamed e.before.disk e.before.folder (trim names)).1 = .ok d

/-- What an exchange does to the site. -/
structure Lawful (e : Exchange) : Prop where
  /-- Dictionaries are loaded if the request asks for that and all that it names can be loaded. -/
  loads_iff : e.Loads ↔ e.request.AsksToLoad ∧ ∃ d, e.Yields d
  /-- What is loaded takes the place of what was served. -/
  replaced : e.Loads → e.Yields e.after.dictionary
  /-- It is made from the named dictionaries alone, whose names it lists in turn. -/
  merged : e.Loads → ∃ names parts, e.request.Names (some names) ∧
    Dictionary.LoadsInTurn e.before.folder e.before.disk (Dictionary.namesOf (trim names)) parts
      e.after.disk ∧
    e.after.dictionary = Dictionary.mergeAll parts ∧
    e.after.dictionary.names = parts.flatMap Dictionary.names
  kept : ¬ e.Loads → e.after.dictionary = e.before.dictionary
  /-- A dictionary that cannot be loaded is reported, however many before it could be. -/
  failed : ∀ names loaded name rest parts disk disk' error, e.request.AsksToLoad →
    e.request.Names (some names) →
    Dictionary.namesOf (trim names) = loaded ++ name :: rest →
    Dictionary.LoadsInTurn e.before.folder e.before.disk loaded parts disk →
    Dictionary.load disk (Dictionary.fileOf e.before.folder name) = (.error error, disk') →
    e.answer = .loadFailed ⟨name, error⟩ ∧ e.after.dictionary = e.before.dictionary
  untouched : ¬ e.request.AsksToLoad → e.after = e.before
  folder : e.after.folder = e.before.folder

variable {e : Exchange}

/-- If nothing is loaded and everything but the disk stays as it was, only the report of what cannot
be loaded is left to check. -/
theorem Lawful.of_not_loads (hasks : e.request.AsksToLoad) (hyields : ∀ d, ¬ e.Yields d)
    (hstatus : e.answer.status ≠ 200) (hdictionary : e.after.dictionary = e.before.dictionary)
    (hfolder : e.after.folder = e.before.folder)
    (hfailed : ∀ names error disk, e.request.Names (some names) → trim names ≠ "" →
      Dictionary.loadNamed e.before.disk e.before.folder (trim names) = (.error error, disk) →
      e.answer = .loadFailed error) :
    e.Lawful where
  loads_iff := ⟨fun h => absurd h.2 hstatus, fun ⟨_, d, hd⟩ => absurd hd (hyields d)⟩
  replaced h := absurd h.2 hstatus
  merged h := absurd h.2 hstatus
  kept _ := hdictionary
  failed := by
    intro names loaded name rest parts disk disk' error _ hnames hlist hloaded hfails
    have hload := Dictionary.loadNamed_of_fails hlist hloaded hfails
    exact ⟨hfailed names _ disk' hnames (Dictionary.trim_ne_of_namesOf hlist) hload, hdictionary⟩
  untouched h := absurd hasks h
  folder := hfolder

theorem Lawful.of_loaded {names : String} {d : Dictionary} {disk : Disk}
    (hasks : e.request.AsksToLoad) (hanswer : e.answer = .loaded)
    (hafter : e.after = ⟨d, e.before.folder, disk⟩) (hnames : e.request.Names (some names))
    (hsolid : trim names ≠ "")
    (hload : Dictionary.loadNamed e.before.disk e.before.folder (trim names) = (.ok d, disk)) :
    e.Lawful := by
  have hloads : e.Loads := ⟨hasks, by rw [hanswer]; rfl⟩
  have hyields : e.Yields e.after.dictionary :=
    ⟨names, hnames, hsolid, by rw [hload, hafter]⟩
  obtain ⟨parts, hparts, hd⟩ := Dictionary.exists_loadsInTurn hload
  have hmerged : e.after.dictionary = Dictionary.mergeAll parts := by rw [hafter]; exact hd
  exact {
    loads_iff := ⟨fun _ => ⟨hasks, _, hyields⟩, fun _ => hloads⟩
    replaced := fun _ => hyields
    merged := by
      intro _
      refine ⟨names, parts, hnames, by rw [hafter]; exact hparts, hmerged, ?_⟩
      rw [hmerged, Dictionary.names_mergeAll]
    kept := fun h => absurd hloads h
    failed := by
      intro names' loaded name rest parts disk₁ disk₂ error _ hnames' hlist hloaded hfails
      obtain rfl := hnames.text_unique hnames'
      rw [Dictionary.loadNamed_of_fails hlist hloaded hfails] at hload
      cases hload
    untouched := fun h => absurd hasks h
    folder := by rw [hafter] }

theorem Lawful.of_loading {answer : Answer} {after : Site} (hasks : r.AsksToLoad)
    (h : Loading site r answer after) : Lawful ⟨site, r, answer, after⟩ := by
  cases h with
  | refused hstatus h =>
      refine .of_not_loads hasks ?_ (by rw [hstatus]; decide) rfl rfl ?_
      · rintro d ⟨names, hnames, hsolid, -⟩
        exact hsolid (h names hnames)
      · intro names error disk hnames hsolid
        exact absurd (h names hnames) hsolid
  | loaded hnames hsolid hload => exact .of_loaded hasks rfl rfl hnames hsolid hload
  | failed hnames hsolid hload =>
      refine .of_not_loads hasks ?_ (by simp [Answer.status]) rfl rfl ?_
      · rintro d ⟨names', hnames', -, hd⟩
        obtain rfl := hnames.text_unique hnames'
        rw [hload] at hd
        cases hd
      · intro names' error' disk' hnames' _ hload'
        obtain rfl := hnames.text_unique hnames'
        rw [hload] at hload'
        cases hload'
        rfl

theorem Lawful.of_not_asks (hasks : ¬ e.request.AsksToLoad) (hafter : e.after = e.before) :
    e.Lawful where
  loads_iff := ⟨fun h => absurd h.1 hasks, fun h => absurd h.1 hasks⟩
  replaced h := absurd h.1 hasks
  merged h := absurd h.1 hasks
  kept _ := by rw [hafter]
  failed _ _ _ _ _ _ _ _ h := absurd h hasks
  untouched _ := hafter
  folder := by rw [hafter]

end Exchange

theorem lawful_exchange (draws : Draws) (site : Site) (r : Request) :
    (exchange draws site r).Lawful := by
  by_cases hasks : r.AsksToLoad
  · exact .of_loading hasks (handle_load draws hasks)
  · exact .of_not_asks hasks (handle_of_not_load hasks)

/-! ### Runs -/

/-- What happens at a site. -/
inductive Event where
  /-- A request is answered, with random words to draw from. -/
  | request (draws : Draws) (r : Request)
  /-- Others change the files on the disk. -/
  | outside (disk : Disk)

/-- The exchanges of a run, from the first to the last. -/
def exchanges (site : Site) : List Event → List Exchange
  | [] => []
  | .request draws r :: events =>
      exchange draws site r :: exchanges (exchange draws site r).after events
  | .outside disk :: events => exchanges { site with disk } events

/-- After some exchanges `d` is what was loaded last: by the last of them that loads dictionaries,
or before all of them. -/
inductive LastLoaded (start : Dictionary) : List Exchange → Dictionary → Prop
  | start {es : List Exchange} (hnone : ∀ e ∈ es, ¬ e.Loads) : LastLoaded start es start
  | load (es later : List Exchange) {e : Exchange} {d : Dictionary} (hloads : e.Loads)
      (hyields : e.Yields d) (hlater : ∀ e ∈ later, ¬ e.Loads) :
      LastLoaded start (es ++ e :: later) d

theorem LastLoaded.cons {e : Exchange} {es : List Exchange} {d : Dictionary} (hlawful : e.Lawful)
    (h : LastLoaded e.after.dictionary es d) : LastLoaded e.before.dictionary (e :: es) d := by
  cases h with
  | start hnone =>
      by_cases hloads : e.Loads
      · exact .load [] es hloads (hlawful.replaced hloads) hnone
      · rw [hlawful.kept hloads]
        exact .start (List.forall_mem_cons.mpr ⟨hloads, hnone⟩)
  | load es later hloads hyields hlater => exact .load (e :: es) later hloads hyields hlater

theorem exchange_of_mem {site : Site} {events : List Event} {e : Exchange}
    (h : e ∈ exchanges site events) : ∃ draws site r, e = exchange draws site r := by
  induction events generalizing site with
  | nil => cases h
  | cons event events ih =>
      cases event with
      | request draws r =>
          rcases List.mem_cons.mp h with rfl | h
          · exact ⟨draws, site, r, rfl⟩
          · exact ih h
      | outside disk =>
          rw [exchanges] at h
          exact ih h

/-- At every exchange the folder is that of the start, and what is served is what was loaded
last. -/
theorem lastLoaded_of_exchanges {site : Site} {events : List Event} {es es' : List Exchange}
    {e : Exchange} (h : exchanges site events = es ++ e :: es') :
    e.before.folder = site.folder ∧ LastLoaded site.dictionary es e.before.dictionary := by
  -- The run goes on from the site after the first exchange, which is lawful.
  induction events generalizing site es with
  | nil => exact absurd h.symm (List.append_ne_nil_of_right_ne_nil es (List.cons_ne_nil e es'))
  | cons event events ih =>
      cases event with
      | outside disk =>
          rw [exchanges] at h
          obtain ⟨hfolder, hlast⟩ := ih h
          exact ⟨hfolder, hlast⟩
      | request draws r =>
          rw [exchanges] at h
          cases es with
          | nil =>
              obtain ⟨rfl, -⟩ := List.cons.inj h
              exact ⟨rfl, .start (by simp)⟩
          | cons first es =>
              obtain ⟨rfl, hrest⟩ := List.cons.inj h
              have hlawful := lawful_exchange draws site r
              obtain ⟨hfolder, hlast⟩ := ih hrest
              exact ⟨hfolder.trans hlawful.folder, .cons hlawful hlast⟩

/-- **What is served is what was loaded last.**  Along every run, every exchange is lawful: only a
request that loads all the dictionaries it names changes what is served, which is replaced by what
it yields at that moment.  At every exchange the site serves what the last such request before it
yielded, or what it served at the start, and lists the names of that when it is asked for them. -/
theorem serves_last_loaded (site : Site) (events : List Event) :
    (∀ e ∈ exchanges site events, e.Lawful) ∧
      ∀ es e es', exchanges site events = es ++ e :: es' →
        e.before.folder = site.folder ∧ LastLoaded site.dictionary es e.before.dictionary ∧
        (e.request.AsksForLoaded → e.answer = .texts e.before.dictionary.names) := by
  constructor
  · intro e he
    obtain ⟨draws, site, r, rfl⟩ := exchange_of_mem he
    exact lawful_exchange draws site r
  · intro es e es' h
    obtain ⟨hfolder, hlast⟩ := lastLoaded_of_exchanges h
    refine ⟨hfolder, hlast, ?_⟩
    intro hasks
    have he : e ∈ exchanges site events := by
      rw [h]
      exact List.mem_append_right es (.head es')
    obtain ⟨draws, before, r, rfl⟩ := exchange_of_mem he
    exact congrArg Prod.fst (handle_loaded hasks)

/-- A dictionary is loaded, then another one cannot be loaded after it, and the first one is still
served. -/
theorem serves_last_loaded_of_failure :
    let bytes (text : String) : Disk.Entry := .file text.toUTF8.data.toList
    let disk : Disk :=
      ⟨["home"], [(["home"], .folder), (["home", "en.json"], bytes "\x7b\"a\":\"x\"\x7d"),
        (["home", "no.json"], bytes "[")], by decide⟩
    let site : Site := ⟨.empty, ⟨false, []⟩, disk⟩
    let load (names : String) : Request :=
      ⟨"PUT", "/v1/load_dictionaries", [("names", names)], none⟩
    let list : Request := ⟨"GET", "/v1/loaded_dictionaries", [], none⟩
    let events := [load "en", load " en , no ", list].map (.request (.ofWords []))
    ∃ first second third, exchanges site events = [first, second, third] ∧
      first.Lawful ∧ first.Loads ∧ second.Lawful ∧ ¬ second.Loads ∧
      LastLoaded site.dictionary [first, second] third.before.dictionary ∧
      third.answer = .texts ["en"] := by
  intro bytes disk site load list events
  obtain ⟨hlawful, hlast⟩ := serves_last_loaded site events
  let first := exchange (.ofWords []) site (load "en")
  let second := exchange (.ofWords []) first.after (load " en , no ")
  let third := exchange (.ofWords []) second.after list
  have hrun : exchanges site events = [first, second, third] := rfl
  obtain ⟨-, hserved, hlisted⟩ := hlast [first, second] third [] hrun
  have hnames : third.before.dictionary.names = ["en"] := by decide +kernel
  have hfails : second.answer.status = 500 := by decide +kernel
  refine ⟨first, second, third, hrun, hlawful first (by simp [hrun]), ⟨⟨rfl, rfl⟩, ?_⟩,
    hlawful second (by simp [hrun]), ?_, hserved, ?_⟩
  · decide +kernel
  · intro hloads
    exact absurd (hfails.symm.trans hloads.2) (by decide)
  · rw [hlisted ⟨rfl, rfl⟩, hnames]

end Service
end Typeahead
