import Typeahead.Proofs.Outcome
import Typeahead.Proofs.Serving
import Typeahead.Proofs.Words

/-! # Requests without a name

A request to load dictionaries lists their names between commas.  Whether the list is empty is
decided twice: the service refuses a list that is blank as a whole, and the names in it are those
pieces between commas that are not blank.  The two agree on every list but those that have commas
and only blanks between them (`trim_eq_empty_iff_nameless`): these are not refused, and nothing is
served afterwards. -/

namespace Typeahead

/-! ### Lists of names -/

/-- Nothing but blanks stands between the commas of a text. -/
def Nameless (text : String) : Prop :=
  ∀ piece ∈ text.toList.splitOn ',', ∀ c ∈ piece, isBlank c = true

theorem nameless_iff (text : String) :
    Nameless text ↔ ∀ c ∈ text.toList, c = ',' ∨ isBlank c = true :=
  forall_mem_splitOn_iff ',' text.toList

theorem nameless_trim_iff (text : String) : Nameless (trim text) ↔ Nameless text := by
  rw [nameless_iff, nameless_iff]
  exact forall_mem_trim_iff (fun _ hc => .inr hc) text

theorem trim_eq_empty_iff_nameless (text : String) :
    trim text = "" ↔ Nameless text ∧ ',' ∉ text.toList := by
  rw [trim_eq_empty_iff, nameless_iff]
  constructor
  · intro h
    refine ⟨fun c hc => .inr (h c hc), fun hcomma => ?_⟩
    exact absurd (h ',' hcomma) (by decide)
  · rintro ⟨h, hcomma⟩ c hc
    rcases h c hc with rfl | hblank
    · exact absurd hc hcomma
    · exact hblank

namespace Dictionary

theorem namesOf_eq_nil_iff (text : String) : namesOf text = [] ↔ Nameless text := by
  unfold namesOf Nameless
  simp only [List.filter_eq_nil_iff, List.forall_mem_map, decide_eq_true_eq, not_not,
    trim_eq_empty_iff, String.toList_ofList]

/-! ### What is served after loading -/

variable {folder : Path} {disk disk' : Disk} {path : Path} {part : Dictionary}
variable {names : List String} {parts : List Dictionary}

theorem names_ne_nil_of_load (h : load disk path = (.ok part, disk')) : part.names ≠ [] := by
  unfold load at h
  split at h
  · rename_i name cache _ _
    split at h
    · obtain ⟨hread, -⟩ := Prod.mk.inj h
      obtain ⟨d, -, rfl⟩ := map_eq_ok_iff.mp hread
      simp [addName]
    · split at h
      · obtain ⟨hpart, -⟩ := Prod.mk.inj h
        rw [← Except.ok.inj hpart]
        simp [addName]
      · cases h
  · cases h

theorem LoadsInTurn.names_mergeAll_eq_nil_iff (h : LoadsInTurn folder disk names parts disk') :
    (mergeAll parts).names = [] ↔ names = [] := by
  rw [names_mergeAll]
  cases h with
  | nil => simp
  | cons h _ => simp [names_ne_nil_of_load h]

theorem loadNamed_of_nameless {text : String} (h : Nameless text) (disk : Disk) (folder : Path) :
    loadNamed disk folder (trim text) = (.ok empty, disk) := by
  rw [loadNamed, (namesOf_eq_nil_iff _).mpr ((nameless_trim_iff text).mpr h), mergeNamed]

end Dictionary

namespace Service

variable {site after : Site} {r : Request} {answer : Answer} {names : Option String} {text : String}

namespace Loading

theorem status_eq_iff (h : Loading site r answer after) (hnames : r.Names names) :
    answer.status = 400 ↔ ∀ text, names = some text → Nameless text ∧ ',' ∉ text.toList := by
  have hnot {text : String} (h : r.Names (some text)) (hsolid : trim text ≠ "") :
      ¬ ∀ text, names = some text → Nameless text ∧ ',' ∉ text.toList := by
    intro hblank
    exact hsolid ((trim_eq_empty_iff_nameless text).mpr (hblank text (hnames.unique h)))
  cases h with
  | refused hstatus h =>
      refine ⟨fun _ text htext => ?_, fun _ => hstatus⟩
      rw [← trim_eq_empty_iff_nameless]
      exact h text (htext ▸ hnames)
  | loaded h hsolid => exact iff_of_false (by simp [Answer.status]) (hnot h hsolid)
  | failed h hsolid => exact iff_of_false (by simp [Answer.status]) (hnot h hsolid)

theorem after_eq (h : Loading site r answer after) (hstatus : answer.status = 400) :
    after = site := by
  cases h with
  | refused => rfl
  | loaded => cases hstatus
  | failed => cases hstatus

theorem of_nameless (h : Loading site r answer after) (hnames : r.Names (some text))
    (hnameless : Nameless text) (hcomma : ',' ∈ text.toList) :
    answer = .loaded ∧ after = { site with dictionary := .empty } := by
  cases h with
  | refused _ h => exact absurd hcomma ((trim_eq_empty_iff_nameless text).mp (h text hnames)).2
  | loaded h _ hload =>
      obtain rfl := hnames.text_unique h
      rw [Dictionary.loadNamed_of_nameless hnameless] at hload
      cases hload
      exact ⟨rfl, rfl⟩
  | failed h _ hload =>
      obtain rfl := hnames.text_unique h
      rw [Dictionary.loadNamed_of_nameless hnameless] at hload
      cases hload

theorem names_eq_nil_iff (h : Loading site r answer after) (hstatus : answer.status = 200) :
    after.dictionary.names = [] ↔ ∃ text, r.Names (some text) ∧ Nameless text := by
  cases h with
  | refused hrefused => exact absurd (hrefused.symm.trans hstatus) (by decide)
  | @loaded text d disk h _ hload =>
      -- Each of the dictionaries that were loaded adds its own name.
      obtain ⟨parts, hparts, hd⟩ := Dictionary.exists_loadsInTurn hload
      have hd : d.names = [] ↔ Nameless text := by
        rw [hd, ← nameless_trim_iff, ← Dictionary.namesOf_eq_nil_iff]
        exact hparts.names_mergeAll_eq_nil_iff
      rw [hd]
      refine ⟨fun hnameless => ⟨text, h, hnameless⟩, ?_⟩
      rintro ⟨text', htext', hnameless⟩
      rwa [h.text_unique htext']
  | failed => cases hstatus

end Loading

/-- **Only blank lists are refused.**  A request to load dictionaries is refused if its list of
names is missing or blank as a whole, and then changes nothing.  If only blanks stand between the
commas of the list, nothing is served afterwards; loading any other list leaves names to be
listed. -/
theorem refused_iff_blank (draws : Draws) (site : Site) {r : Request} (hasks : r.AsksToLoad)
    {names : Option String} (hnames : r.Names names) :
    let e := exchange draws site r
    (e.answer.status = 400 ↔
        ∀ text, names = some text → Nameless text ∧ ',' ∉ text.toList) ∧
      (e.answer.status = 400 → e.after = site) ∧
      (∀ text, names = some text → Nameless text → ',' ∈ text.toList →
        e.answer = .loaded ∧ e.after = { site with dictionary := .empty }) ∧
      (e.answer.status = 200 →
        (e.after.dictionary.names = [] ↔ ∃ text, names = some text ∧ Nameless text)) := by
  intro e
  have h : Loading site r e.answer e.after := handle_load draws hasks
  refine ⟨h.status_eq_iff hnames, h.after_eq, ?_, ?_⟩
  · rintro text rfl hnameless hcomma
    exact h.of_nameless hnames hnameless hcomma
  · intro hstatus
    rw [h.names_eq_nil_iff hstatus]
    constructor
    · rintro ⟨text, htext, hnameless⟩
      exact ⟨text, hnames.unique htext, hnameless⟩
    · rintro ⟨text, rfl, hnameless⟩
      exact ⟨text, hnames, hnameless⟩

/-- A list of two spaces is refused. -/
theorem refused_iff_blank_spaces :
    let r : Request := ⟨"PUT", "/v1/load_dictionaries", [("names", "  ")], none⟩
    let site : Site := ⟨⟨.empty, ["en"]⟩, ⟨false, []⟩, .ofHome []⟩
    let e := exchange (.ofWords []) site r
    r.AsksToLoad ∧ r.Names (some "  ") ∧ e.answer.status = 400 ∧ e.after = site := by
  intro r site e
  have hasks : r.AsksToLoad := ⟨rfl, rfl⟩
  have hnames : r.Names (some "  ") := rfl
  obtain ⟨hrefused, hkept, -, -⟩ := refused_iff_blank (.ofWords []) site hasks hnames
  have hstatus : e.answer.status = 400 := by
    refine hrefused.mpr fun text htext => ?_
    obtain rfl := Option.some.inj htext
    rw [← trim_eq_empty_iff_nameless]
    decide +kernel
  exact ⟨hasks, hnames, hstatus, hkept hstatus⟩

/-- A comma names nothing, but it is not refused, and what was served before is lost. -/
theorem not_refused_comma :
    let r : Request := ⟨"PUT", "/v1/load_dictionaries", [("names", ",")], none⟩
    let site : Site := ⟨⟨.empty, ["en"]⟩, ⟨false, []⟩, .ofHome []⟩
    let e := exchange (.ofWords []) site r
    r.AsksToLoad ∧ r.Names (some ",") ∧ Nameless "," ∧ e.answer.status = 200 ∧
      e.before.dictionary.names = ["en"] ∧ e.after.dictionary.names = [] := by
  intro r site e
  have hasks : r.AsksToLoad := ⟨rfl, rfl⟩
  have hnames : r.Names (some ",") := rfl
  have hnameless : Nameless "," :=
    (nameless_iff ",").mpr fun c hc => .inl (List.mem_singleton.mp hc)
  have h : Loading site r e.answer e.after := handle_load (.ofWords []) hasks
  obtain ⟨hanswer, hafter⟩ := h.of_nameless hnames hnameless (by decide)
  exact ⟨hasks, hnames, hnameless, by rw [hanswer]; rfl, rfl, by rw [hafter]; rfl⟩

end Service
end Typeahead
