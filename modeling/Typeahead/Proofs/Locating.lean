import Typeahead.Proofs.Reading

/-! # Where misfits are

A misfit is reported with a location, and the location leads to a value that is there
(`Misfit.Located`), with one exception: a script that is no text is reported in the field `script`,
also if it stands in `ps` and there is no `script`.  A reader is told where the value stands that it
reads, and the misfits that it reports lie in that value (`Misfit.Within`), so that every reader
passes on what the readers of items and fields report, and adds a step to the way. -/

namespace Typeahead

/-! ### Values inside values -/

/-- Following the location from the first value leads to the second. -/
inductive Json.At : Json → Location → Json → Prop
  | here (value : Json) : At value [] value
  | item {items : List Json} {index : ℕ} {item found : Json} {rest : Location}
      (hitem : items[index]? = some item) (h : At item rest found) :
      At (.array items) (.item index :: rest) found
  | field {fields : List (String × Json)} {key : String} {value found : Json} {rest : Location}
      (hfield : (key, value) ∈ fields) (h : At value rest found) :
      At (.object fields) (.field key :: rest) found

theorem Json.At.of_mem {fields : List (String × Json)} {key : String} {value : Json}
    (h : (key, value) ∈ fields) : (Json.object fields).At [.field key] value :=
  .field h (.here value)

theorem Table.mem_of_lookup {α : Type} {l : List (String × α)} {key : String} {value : α}
    (h : l.lookup key = some value) : (key, value) ∈ l := by
  obtain ⟨l₁, l₂, rfl, -⟩ := List.lookup_eq_some_iff.mp h
  simp

namespace Misfit

/-- The object holds a script that is no text in `ps`, and nothing in `script`. -/
structure WrongPs (fields : List (String × Json)) (found : Json) : Prop where
  script : fields.lookup "script" = none
  ps : fields.lookup "ps" = some found
  text : found.text? = none

/-- The misfit is in the value: its location leads to something there, or to where a `script` would
be that is held in `ps`. -/
inductive Located (value : Json) : Misfit → Prop
  | there {location : Location} {reason : MisfitReason} {found : Json}
      (h : value.At location found) : Located value ⟨location, reason⟩
  | ps {location : Location} {fields : List (String × Json)} {found : Json}
      (h : value.At location (.object fields)) (hps : WrongPs fields found) :
      Located value ⟨location ++ [.field "script"], .scriptNotText found.kind⟩

/-- The misfit is in the value, which stands at the location. -/
def Within (location : Location) (value : Json) (m : Misfit) : Prop :=
  ∃ rest, m.location = location ++ rest ∧ Located value ⟨rest, m.reason⟩

variable {location : Location} {m : Misfit} {value : Json}

theorem Located.item {items : List Json} {index : ℕ} {rest : Location} {reason : MisfitReason}
    (hitem : items[index]? = some value) (h : Located value ⟨rest, reason⟩) :
    Located (.array items) ⟨.item index :: rest, reason⟩ := by
  cases h with
  | there h => exact .there (.item hitem h)
  | ps h hps => exact .ps (.item hitem h) hps

theorem Located.field {fields : List (String × Json)} {key : String} {rest : Location}
    {reason : MisfitReason} (hfield : (key, value) ∈ fields) (h : Located value ⟨rest, reason⟩) :
    Located (.object fields) ⟨.field key :: rest, reason⟩ := by
  cases h with
  | there h => exact .there (.field hfield h)
  | ps h hps => exact .ps (.field hfield h) hps

theorem within_here (location : Location) (value : Json) (reason : MisfitReason) :
    Within location value ⟨location, reason⟩ :=
  ⟨[], (List.append_nil location).symm, .there (.here value)⟩

theorem within_field {fields : List (String × Json)} {key : String} (h : (key, value) ∈ fields)
    (location : Location) (reason : MisfitReason) :
    Within location (.object fields) ⟨location ++ [.field key], reason⟩ :=
  ⟨[.field key], rfl, .there (.of_mem h)⟩

theorem Within.item {items : List Json} {index : ℕ} (hitem : items[index]? = some value)
    (h : Within (location ++ [.item index]) value m) : Within location (.array items) m := by
  obtain ⟨rest, hrest, h⟩ := h
  exact ⟨.item index :: rest, by simpa using hrest, h.item hitem⟩

theorem Within.field {fields : List (String × Json)} {key : String} (hfield : (key, value) ∈ fields)
    (h : Within (location ++ [.field key]) value m) : Within location (.object fields) m := by
  obtain ⟨rest, hrest, h⟩ := h
  exact ⟨.field key :: rest, by simpa using hrest, h.field hfield⟩

end Misfit

namespace Node

open Misfit (Located Within within_here within_field)

/-! ### Misfits of nodes -/

variable {location : Location} {fields : List (String × Json)} {m : Misfit}

theorem within_of_onlyKeys {allowed : List String}
    (h : onlyKeys allowed location fields = .error m) : Within location (.object fields) m := by
  unfold onlyKeys at h
  split at h
  · rename_i key value hfind
    obtain rfl := Except.error.inj h
    exact within_field (List.mem_of_find?_eq_some hfind) location _
  · cases h

theorem within_of_directive {next : Except Misfit (Continuation String)}
    (h : directive location fields next = .error m) :
    Within location (.object fields) m ∨ next = .error m := by
  unfold directive at h
  split at h
  · obtain rfl := Except.error.inj h
    exact .inl (within_here location _ _)
  · rcases bind_eq_error_iff.mp h with h | ⟨-, -, h⟩
    · exact .inl (within_of_onlyKeys h)
    · rcases bind_eq_error_iff.mp h with h | ⟨c, -, h⟩
      · exact .inr h
      · cases h
  · rename_i found _ hname _
    obtain rfl := Except.error.inj h
    exact .inl (within_field (Table.mem_of_lookup hname) location _)
  · rcases bind_eq_error_iff.mp h with h | ⟨-, -, h⟩
    · exact .inl (within_of_onlyKeys h)
    · cases h
  · rename_i found htext _ hscript
    obtain rfl := Except.error.inj h
    rcases Option.or_eq_some_iff.mp hscript with hscript | ⟨hnone, hps⟩
    · exact .inl (within_field (Table.mem_of_lookup hscript) location _)
    · refine .inl ⟨[.field "script"], rfl, .ps (.here _) ⟨hnone, hps, ?_⟩⟩
      cases found with
      | text text => exact absurd rfl (htext text)
      | _ => rfl
  · obtain rfl := Except.error.inj h
    exact .inl (within_here location _ _)

theorem of_continuation_eq_error {value : Json} {node : Except Misfit (Node String)}
    (h : continuation value node = .error m) : node = .error m := by
  unfold continuation at h
  split at h
  · cases h
  · cases h
  · exact map_eq_error_iff.mp h

mutual

theorem within_of_read : ∀ {value : Json} {location : Location} {m : Misfit},
    read location value = .error m → Within location value m
  | .null, location, m, h | .boolean _, location, m, h | .number _, location, m, h => by
      obtain rfl := Except.error.inj h
      exact within_here location _ _
  | .text _, _, _, h => by cases h
  | .array items, location, m, h => by
      obtain ⟨index, item, hitem, h⟩ := within_of_readItems h
      rw [Nat.zero_add] at h
      exact h.item hitem
  | .object fields, location, m, h => by
      rw [read, map_eq_error_iff] at h
      rcases within_of_directive h with h | h
      · exact h
      · obtain ⟨value, hvalue, h⟩ := within_of_readThen h
        exact h.field hvalue

theorem within_of_readItems : ∀ {items : List Json} {location : Location} {index : ℕ} {m : Misfit},
    readItems location index items = .error m →
      ∃ i item, items[i]? = some item ∧ Within (location ++ [.item (index + i)]) item m
  | [], _, _, _, h => by cases h
  | item :: rest, location, index, m, h => by
      rw [readItems] at h
      rcases bind_eq_error_iff.mp h with h | ⟨a, -, h⟩
      · exact ⟨0, item, rfl, within_of_readAlternative h⟩
      · rcases bind_eq_error_iff.mp h with h | ⟨node, -, h⟩
        · obtain ⟨i, item', hitem, h⟩ := within_of_readItems h
          rw [Nat.add_right_comm] at h
          exact ⟨i + 1, item', hitem, h⟩
        · cases h

theorem within_of_readAlternative : ∀ {value : Json} {location : Location} {m : Misfit},
    readAlternative location value = .error m → Within location value m
  | .null, location, m, h | .boolean _, location, m, h | .number _, location, m, h => by
      obtain rfl := Except.error.inj h
      exact within_here location _ _
  | .text _, _, _, h => by cases h
  | .array items, location, m, h => by
      rw [readAlternative, map_eq_error_iff] at h
      obtain ⟨index, item, hitem, h⟩ := within_of_readItems h
      rw [Nat.zero_add] at h
      exact h.item hitem
  | .object fields, location, m, h => by
      rw [readAlternative] at h
      rcases within_of_directive h with h | h
      · exact h
      · obtain ⟨value, hvalue, h⟩ := within_of_readThen h
        exact h.field hvalue

theorem within_of_readThen : ∀ {fields : List (String × Json)} {location : Location} {m : Misfit},
    readThen location fields = .error m →
      ∃ value, ("then", value) ∈ fields ∧ Within (location ++ [.field "then"]) value m
  | [], _, _, h => by cases h
  | (key, value) :: rest, location, m, h => by
      rw [readThen] at h
      by_cases hkey : key = "then"
      · subst hkey
        rw [if_pos rfl] at h
        exact ⟨value, List.mem_cons_self, within_of_read (of_continuation_eq_error h)⟩
      · rw [if_neg hkey] at h
        obtain ⟨value', hvalue, h⟩ := within_of_readThen h
        exact ⟨value', List.mem_cons_of_mem _ hvalue, h⟩

end

theorem located_of_ofJson {value : Json} (h : ofJson value = .error m) : Located value m := by
  obtain ⟨location, reason⟩ := m
  obtain ⟨rest, hrest, h⟩ := within_of_read h
  obtain rfl : location = rest := hrest
  exact h

end Node

namespace Grammar

open Misfit (Located WrongPs)

/-! ### Misfits of grammars -/

variable {value : Json} {fields : List (String × Json)} {m : Misfit}

/-- A misfit of a branch is in the dictionary.  Where the location is cut down to the branch, the
branch is there. -/
theorem located_of_branchOfJson {f : String × Json} (hf : f ∈ fields)
    (h : branchOfJson f = .error m) : Located (.object fields) m := by
  obtain ⟨name, node⟩ := f
  unfold branchOfJson at h
  split at h
  · cases h
  · rename_i inner hinner
    obtain rfl := Except.error.inj h
    unfold Location.under
    split_ifs
    · exact .there (.of_mem hf)
    · exact (Node.located_of_ofJson hinner).field hf

theorem located_of_ofMain (h : ofMain value = .error m) : Located value m := by
  rcases bind_eq_error_iff.mp h with h | ⟨node, -, h⟩
  · exact Node.located_of_ofJson h
  · cases h

theorem located_of_ofBranches (h : ofBranches fields = .error m) : Located (.object fields) m := by
  rcases bind_eq_error_iff.mp h with h | ⟨es, -, h⟩
  · obtain ⟨f, hf, h⟩ := exists_of_mapM_eq_error h
    exact located_of_branchOfJson hf h
  · cases h

theorem located_of_readJson (h : readJson value = .error m) : Located value m := by
  cases value with
  | object fields =>
      rw [readJson] at h
      split_ifs at h
      · exact located_of_ofBranches h
      · exact located_of_ofMain h
      · obtain rfl := Except.error.inj h
        exact .there (.here _)
  | null | boolean _ | number _ | text _ | array _ => exact located_of_ofMain h

theorem ofJson_eq_error_iff {error : GrammarError} :
    ofJson value = .error error ↔ ∃ m, error = .misfit m ∧ readJson value = .error m := by
  unfold ofJson
  cases readJson value with
  | ok g => simp
  | error m => simp [eq_comm]

/-- **Misfits are found where they are reported.**  Every value that cannot be read as a grammar is
reported as a misfit, and its location leads to something in the value.  Only a script that is no
text is reported elsewhere if it stands in `ps`: in the field `script` of the same object, which
the object does not have. -/
theorem misfit_located {error : GrammarError} (h : ofJson value = .error error) :
    ∃ m, error = .misfit m ∧
      ((∃ found, value.At m.location found) ∨
        ∃ location fields found, value.At location (.object fields) ∧ WrongPs fields found ∧
          m = ⟨location ++ [.field "script"], .scriptNotText found.kind⟩) := by
  obtain ⟨m, rfl, hread⟩ := ofJson_eq_error_iff.mp h
  refine ⟨m, rfl, ?_⟩
  obtain hfound | ⟨hobject, hps⟩ := located_of_readJson hread
  · exact .inl ⟨_, hfound⟩
  · exact .inr ⟨_, _, _, hobject, hps, rfl⟩

/-- A number inside a nested node is reported where it stands. -/
theorem misfit_located_number :
    let value : Json := .array [.text "a", .array [.text "b", .number "3"]]
    let misfit : Misfit := ⟨[.item 1, .item 1], .notAlternative .number⟩
    ofJson value = .error (.misfit misfit) ∧ ∃ found, value.At misfit.location found := by
  intro value misfit
  have h : ofJson value = .error (.misfit misfit) := by decide +kernel
  refine ⟨h, ?_⟩
  obtain ⟨m, hm, hfound | ⟨location, fields, found, -, -, hps⟩⟩ := misfit_located h
  · cases hm
    exact hfound
  · cases hm
    cases congrArg Misfit.reason hps

/-- A number in `ps` is reported in a field `script` that is not there: no location in the value is
written like the one that is reported. -/
theorem misfit_not_located_ps :
    let value : Json := .object [("ps", .number "3")]
    let misfit : Misfit := ⟨[.field "script"], .scriptNotText .number⟩
    ofJson value = .error (.misfit misfit) ∧
      ∀ location found, value.At location found → location.render ≠ misfit.location.render := by
  refine ⟨by decide +kernel, ?_⟩
  rintro location found (_ | _ | ⟨hfield, h⟩)
  · decide
  · obtain ⟨rfl, rfl⟩ := Prod.mk.inj (List.mem_singleton.mp hfield)
    cases h
    decide

end Grammar
end Typeahead
