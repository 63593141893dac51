import Typeahead.Proofs.Serving
import Typeahead.Proofs.Transparency

/-! # Merging dictionaries

Merging is associative and has the empty dictionary as its identity, so that dictionaries which are
merged one after the other can be merged in groups.  What a key finds afterwards is what it finds in
the last of them that has it (`Dictionary.get?_mergeAll_eq_some_iff`).

A list of names that is put together from two by a comma names the dictionaries of the first list
and then those of the second (`Dictionary.namesOf_append`).  Loading them leaves off where the first
list fails, and otherwise goes on with the second list on the disk that the first one left
(`Dictionary.mergesBy_append_iff`); what was loaded before only has to be merged in at the end
(`Dictionary.mergesBy_iff`).  This is so whatever a load may do: it holds of every relation between
disks and paths and what is loaded and left on the disk, and so of the load that is executed as well
as of all those that may happen where caches cannot be written. -/

namespace Typeahead

/-! ### Merging -/

namespace Table

theorem get?_override {α : Type} (t s : Table α) (key : String) :
    (t.override s).get? key = (s.get? key).or (t.get? key) := by
  have hperm : s.entries.reverse.Perm s.entries := s.entries.reverse_perm
  have hnodup : (s.entries.reverse.map Prod.fst).Nodup :=
    (hperm.map Prod.fst).nodup_iff.mpr s.nodup_keys
  rw [override, get?_insertAll, lookup_eq_of_perm hperm hnodup key]
  rfl

end Table

namespace Dictionary

/-- After merging, a key of the second dictionary has the grammar it has there, and every other key
keeps that of the first. -/
theorem get?_merge (a b : Dictionary) (key : String) :
    (a.merge b).get? key = (b.get? key).or (a.get? key) :=
  Table.get?_override a.entries b.entries key

theorem eq_of_get? {a b : Dictionary} (hkeys : ∀ key, a.get? key = b.get? key)
    (hnames : a.names = b.names) : a = b := by
  obtain ⟨entries, names⟩ := a
  obtain ⟨entries', names'⟩ := b
  obtain rfl : entries = entries' := Table.ext_get? hkeys
  obtain rfl : names = names' := hnames
  rfl

theorem merge_assoc (a b c : Dictionary) : (a.merge b).merge c = a.merge (b.merge c) := by
  apply eq_of_get?
  · intro key
    simp only [get?_merge, Option.or_assoc]
  · exact List.append_assoc a.names b.names c.names

theorem empty_merge (a : Dictionary) : empty.merge a = a := by
  apply eq_of_get?
  · intro key
    rw [get?_merge]
    exact Option.or_none
  · exact List.nil_append a.names

theorem merge_empty (a : Dictionary) : a.merge empty = a := by
  apply eq_of_get?
  · intro key
    rw [get?_merge]
    exact Option.none_or
  · exact List.append_nil a.names

theorem get?_foldl_merge (parts : List Dictionary) (d : Dictionary) (key : String) :
    (parts.foldl merge d).get? key =
      (parts.reverse.findSome? fun part => part.get? key).or (d.get? key) := by
  induction parts generalizing d with
  | nil => rfl
  | cons part parts ih =>
      rw [List.foldl_cons, ih, get?_merge, List.reverse_cons, List.findSome?_append,
        List.findSome?_singleton, Option.or_assoc]

/-- Of dictionaries that are merged one after the other, the last one that has a key decides what
the key finds. -/
theorem get?_mergeAll_eq_some_iff {parts : List Dictionary} {key : String} {g : Grammar String} :
    (mergeAll parts).get? key = some g ↔
      ∃ before part after, parts = before ++ part :: after ∧ part.get? key = some g ∧
        ∀ later ∈ after, later.get? key = none := by
  rw [mergeAll, get?_foldl_merge]
  show (Option.or _ none) = _ ↔ _
  rw [Option.or_none, List.findSome?_eq_some_iff]
  constructor
  · rintro ⟨after, part, before, hparts, hpart, hafter⟩
    refine ⟨before.reverse, part, after.reverse, ?_, hpart, ?_⟩
    · rw [← List.reverse_reverse parts, hparts]
      simp
    · intro later hlater
      exact hafter later (List.mem_reverse.mp hlater)
  · rintro ⟨before, part, after, rfl, hpart, hafter⟩
    refine ⟨after.reverse, part, before.reverse, by simp, hpart, ?_⟩
    intro later hlater
    exact hafter later (List.mem_reverse.mp hlater)

/-! ### Lists of names -/

theorem namesOf_append (s t : String) : namesOf (s ++ "," ++ t) = namesOf s ++ namesOf t := by
  have hsplit : (s ++ "," ++ t).toList.splitOn ',' =
      s.toList.splitOn ',' ++ t.toList.splitOn ',' := by
    rw [String.toList_append, String.toList_append, List.append_assoc]
    exact List.splitOnP_append_cons _ _ (by rfl)
  unfold namesOf
  rw [hsplit, List.map_append, List.filter_append]

/-! ### Loading by name -/

/-- Named dictionaries of a folder are loaded and merged to a dictionary one after the other, up to
the first that cannot be loaded; `loads` says what may come of a load. -/
inductive MergesBy (loads : Disk → Path → Except DictionaryError Dictionary → Disk → Prop)
    (folder : Path) :
    Disk → Dictionary → List String → Except LoadError Dictionary → Disk → Prop
  | done (disk : Disk) (d : Dictionary) : MergesBy loads folder disk d [] (.ok d) disk
  | failed {disk disk' : Disk} {d : Dictionary} {name : String} {names : List String}
      {error : DictionaryError} (h : loads disk (fileOf folder name) (.error error) disk') :
      MergesBy loads folder disk d (name :: names) (.error ⟨name, error⟩) disk'
  | loaded {disk disk₁ disk' : Disk} {d part : Dictionary} {name : String} {names : List String}
      {r : Except LoadError Dictionary} (h : loads disk (fileOf folder name) (.ok part) disk₁)
      (hrest : MergesBy loads folder disk₁ (d.merge part) names r disk') :
      MergesBy loads folder disk d (name :: names) r disk'

section mergesBy

variable {loads : Disk → Path → Except DictionaryError Dictionary → Disk → Prop}
variable {folder : Path} {disk disk' : Disk} {d e : Dictionary} {names names' : List String}
variable {r : Except LoadError Dictionary}

theorem mergesBy_append_iff :
    MergesBy loads folder disk d (names ++ names') r disk' ↔
      (∃ error, r = .error error ∧ MergesBy loads folder disk d names (.error error) disk') ∨
        ∃ e disk₁, MergesBy loads folder disk d names (.ok e) disk₁ ∧
          MergesBy loads folder disk₁ e names' r disk' := by
  induction names generalizing disk d with
  | nil =>
      constructor
      · intro h
        exact .inr ⟨d, disk, .done disk d, h⟩
      · rintro (⟨error, -, h⟩ | ⟨e, disk₁, h, h'⟩)
        · cases h
        · cases h
          exact h'
  | cons name names ih =>
      constructor
      · intro h
        cases h with
        | failed h => exact .inl ⟨_, rfl, .failed h⟩
        | loaded h hrest =>
            rcases ih.mp hrest with ⟨error, rfl, hfirst⟩ | ⟨e, disk₁, hfirst, h'⟩
            · exact .inl ⟨error, rfl, .loaded h hfirst⟩
            · exact .inr ⟨e, disk₁, .loaded h hfirst, h'⟩
      · rintro (⟨error, rfl, h⟩ | ⟨e, disk₁, h, h'⟩)
        · cases h with
          | failed h => exact .failed h
          | loaded h hrest => exact .loaded h (ih.mpr (.inl ⟨error, rfl, hrest⟩))
        · cases h with
          | loaded h hrest => exact .loaded h (ih.mpr (.inr ⟨e, disk₁, hrest, h'⟩))

theorem MergesBy.merge (h : MergesBy loads folder disk e names r disk') (d : Dictionary) :
    MergesBy loads folder disk (d.merge e) names ((d.merge ·) <$> r) disk' := by
  induction h with
  | done disk e => exact .done disk (d.merge e)
  | failed h => exact .failed h
  | loaded h _ ih =>
      rw [← merge_assoc] at ih
      exact .loaded h ih

theorem MergesBy.exists_merge (h : MergesBy loads folder disk (d.merge e) names r disk') :
    ∃ r', MergesBy loads folder disk e names r' disk' ∧ r = (d.merge ·) <$> r' := by
  generalize hde : d.merge e = de at h
  induction h generalizing e with
  | done disk => exact ⟨.ok e, .done disk e, by rw [← hde]; rfl⟩
  | failed h => exact ⟨_, .failed h, rfl⟩
  | @loaded _ _ _ _ part _ _ _ h _ ih =>
      subst hde
      obtain ⟨r', hrest, hr⟩ := ih (merge_assoc d e part).symm
      exact ⟨r', .loaded h hrest, hr⟩

theorem mergesBy_iff :
    MergesBy loads folder disk d names r disk' ↔
      ∃ r', MergesBy loads folder disk empty names r' disk' ∧ r = (d.merge ·) <$> r' := by
  constructor
  · intro h
    rw [← merge_empty d] at h
    exact h.exists_merge
  · rintro ⟨r', h, rfl⟩
    have hmerge := h.merge d
    rwa [merge_empty] at hmerge

end mergesBy

/-! ### The loads that are executed -/

/-- What comes of the load that is executed. -/
def Executes (disk : Disk) (path : Path) (r : Except DictionaryError Dictionary) (disk' : Disk) :
    Prop :=
  load disk path = (r, disk')

variable {folder : Path} {disk disk' : Disk} {d : Dictionary} {names : List String}
variable {r : Except LoadError Dictionary} {error : LoadError}

theorem mergeNamed_eq_iff :
    mergeNamed folder disk d names = (r, disk') ↔
      MergesBy Executes folder disk d names r disk' := by
  induction names generalizing disk d with
  | nil =>
      rw [mergeNamed]
      constructor
      · rintro ⟨⟩
        exact .done _ _
      · rintro ⟨⟩
        rfl
  | cons name names ih =>
      rw [mergeNamed, ← fileOf]
      rcases hload : load disk (fileOf folder name) with ⟨error | part, disk₁⟩
      · constructor
        · rintro ⟨⟩
          exact .failed hload
        · intro h
          cases h with
          | failed h => cases hload.symm.trans h; rfl
          | loaded h => cases hload.symm.trans h
      · show mergeNamed folder disk₁ (d.merge part) names = _ ↔ _
        rw [ih]
        constructor
        · exact .loaded hload
        · intro h
          cases h with
          | failed h => cases hload.symm.trans h
          | loaded h hrest => cases hload.symm.trans h; exact hrest

theorem loadNamed_append (disk : Disk) (folder : Path) (s t : String) :
    loadNamed disk folder (s ++ "," ++ t) =
      match loadNamed disk folder s with
      | (.ok d, disk) => ((d.merge ·) <$> (loadNamed disk folder t).1, (loadNamed disk folder t).2)
      | (.error error, disk) => (.error error, disk) := by
  rcases hs : loadNamed disk folder s with ⟨error | d, disk₁⟩
  · apply mergeNamed_eq_iff.mpr
    rw [namesOf_append, mergesBy_append_iff]
    exact .inl ⟨error, rfl, mergeNamed_eq_iff.mp hs⟩
  · apply mergeNamed_eq_iff.mpr
    rw [namesOf_append, mergesBy_append_iff]
    refine .inr ⟨d, disk₁, mergeNamed_eq_iff.mp hs, mergesBy_iff.mpr ⟨_, ?_, rfl⟩⟩
    exact mergeNamed_eq_iff.mp rfl

/-- Loading by name fails at the first name whose dictionary cannot be loaded. -/
theorem mergeNamed_eq_error_iff :
    mergeNamed folder disk d names = (.error error, disk') ↔
      ∃ before after parts disk₁, names = before ++ error.name :: after ∧
        LoadsInTurn folder disk before parts disk₁ ∧
        load disk₁ (fileOf folder error.name) = (.error error.error, disk') := by
  constructor
  · intro h
    rw [mergeNamed_eq_iff] at h
    generalize hr : (.error error : Except LoadError Dictionary) = r at h
    induction h with
    | done => cases hr
    | @failed disk _ _ name names error h =>
        obtain rfl := Except.error.inj hr
        exact ⟨[], names, [], disk, rfl, .nil disk, h⟩
    | @loaded _ _ _ _ part name _ _ h _ ih =>
        obtain ⟨before, after, parts, disk₁, rfl, hbefore, hfails⟩ := ih hr
        exact ⟨name :: before, after, part :: parts, disk₁, rfl, .cons h hbefore, hfails⟩
  · rintro ⟨before, after, parts, disk₁, rfl, hbefore, hfails⟩
    exact hbefore.mergeNamed_of_fails hfails

theorem mergeNamed_eq_ok_iff {e : Dictionary} :
    mergeNamed folder disk d names = (.ok e, disk') ↔
      ∃ parts, LoadsInTurn folder disk names parts disk' ∧ e = parts.foldl merge d := by
  constructor
  · exact exists_loadsInTurn
  · rintro ⟨parts, hparts, rfl⟩
    have h := hparts.mergeNamed_append (d := d) []
    rwa [List.append_nil, mergeNamed] at h

/-- **Loading by name merges what is loaded.**  Merging is associative, the empty dictionary is its
identity on both sides, keys of the second dictionary override those of the first, and its names
come after.  Loading two lists of names that a comma joins is loading the first, then the second on
the disk that the first one left, and merging the two; if one of them fails, that is the outcome.
It fails exactly if one of the named dictionaries cannot be loaded after those before it, for the
first that is so; otherwise all of them are merged in their order, and each key has the grammar of
the last that has it.  The same is true of every way in which the loads may go, also if caches
cannot be written. -/
theorem loadNamed_merges :
    (∀ a b c : Dictionary, (a.merge b).merge c = a.merge (b.merge c)) ∧
      (∀ a : Dictionary, empty.merge a = a ∧ a.merge empty = a) ∧
      (∀ a b : Dictionary, (∀ key, (a.merge b).get? key = (b.get? key).or (a.get? key)) ∧
        (a.merge b).names = a.names ++ b.names) ∧
      (∀ disk folder s t,
        loadNamed disk folder (s ++ "," ++ t) =
          match loadNamed disk folder s with
          | (.ok d, disk) =>
            ((d.merge ·) <$> (loadNamed disk folder t).1, (loadNamed disk folder t).2)
          | (.error error, disk) => (.error error, disk)) ∧
      (∀ disk folder text error disk', loadNamed disk folder text = (.error error, disk') ↔
        ∃ before after parts disk₁, namesOf text = before ++ error.name :: after ∧
          LoadsInTurn folder disk before parts disk₁ ∧
          load disk₁ (fileOf folder error.name) = (.error error.error, disk')) ∧
      (∀ disk folder text d disk', loadNamed disk folder text = (.ok d, disk') ↔
        ∃ parts, LoadsInTurn folder disk (namesOf text) parts disk' ∧ d = mergeAll parts) ∧
      (∀ parts key g, (mergeAll parts).get? key = some g ↔
        ∃ before part after, parts = before ++ part :: after ∧ part.get? key = some g ∧
          ∀ later ∈ after, later.get? key = none) ∧
      ∀ disk folder s t r disk',
        MergesBy Loads folder disk empty (namesOf (s ++ "," ++ t)) r disk' ↔
          (∃ error, r = .error error ∧
            MergesBy Loads folder disk empty (namesOf s) (.error error) disk') ∨
          ∃ d disk₁ r', MergesBy Loads folder disk empty (namesOf s) (.ok d) disk₁ ∧
            MergesBy Loads folder disk₁ empty (namesOf t) r' disk' ∧ r = (d.merge ·) <$> r' := by
  refine ⟨merge_assoc, fun a => ⟨empty_merge a, merge_empty a⟩, fun a b => ⟨get?_merge a b, rfl⟩,
    loadNamed_append, fun _ _ _ _ _ => mergeNamed_eq_error_iff,
    fun _ _ _ _ _ => mergeNamed_eq_ok_iff, fun _ _ _ => get?_mergeAll_eq_some_iff, ?_⟩
  intro disk folder s t r disk'
  rw [namesOf_append, mergesBy_append_iff]
  apply or_congr_right
  constructor
  · rintro ⟨d, disk₁, hs, ht⟩
    obtain ⟨r', ht, hr⟩ := mergesBy_iff.mp ht
    exact ⟨d, disk₁, r', hs, ht, hr⟩
  · rintro ⟨d, disk₁, r', hs, ht, hr⟩
    exact ⟨d, disk₁, hs, mergesBy_iff.mpr ⟨r', ht, hr⟩⟩

end Dictionary
end Typeahead
