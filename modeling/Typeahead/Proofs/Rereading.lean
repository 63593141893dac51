import Typeahead.Proofs.Parts
import Typeahead.Proofs.Reading

/-! # Reading back what was written

The form in which a node is written holds each of its alternatives in a value of its own kind: a
literal in a string, a nested node in an array, a directive in an object.  So the reader finds every
alternative again, at every depth (`Node.readItems_toJson`).  All branches of a grammar are written
as arrays; as the name and the script of a directive are strings, a dictionary of branches is never
mistaken for a directive, whatever its branches are called (`Grammar.ofJson_of_arrays`). -/

namespace Typeahead
namespace Node

/-! ### Nodes -/

mutual

theorem readAlternative_toJson : ∀ (a : Alternative String) (location : Location),
    readAlternative location (alternativeToJson a) = .ok a
  | .literal text, location => by rw [alternativeToJson, readAlternative]
  | .nested node, location => by
      rw [alternativeToJson, readAlternative, readItems_toJson node location 0]
      rfl
  | .reference name next, location => by
      rw [alternativeToJson, readAlternative, readThen_toJson next location name]
      refine directive_of_reference List.lookup_cons_self ?_
      cases next <;> simp [continuationToJson]
  | .script text, location => by
      rw [alternativeToJson, readAlternative]
      exact directive_of_script rfl rfl (by simp)

theorem readThen_toJson : ∀ (next : Continuation String) (location : Location) (name : String),
    readThen location (("branch", .text name) :: continuationToJson next) = .ok next
  | .nothing, location, name => by
      rw [continuationToJson, readThen_eq]
      rfl
  | .text text, location, name => by
      rw [continuationToJson, readThen_eq]
      rfl
  | .node node, location, name => by
      rw [continuationToJson, readThen_eq]
      show continuation _ (read _ (.array (itemsToJson node))) = _
      rw [read, readItems_toJson node]
      rfl

theorem readItems_toJson : ∀ (node : Node String) (location : Location) (index : ℕ),
    readItems location index (itemsToJson node) = .ok node
  | [], location, index => by rw [itemsToJson, readItems]
  | a :: node, location, index => by
      rw [itemsToJson, readItems, readAlternative_toJson a, readItems_toJson node]
      rfl

end

theorem ofJson_toJson (node : Node String) : ofJson node.toJson = .ok node := by
  unfold ofJson toJson
  rw [read, readItems_toJson]

end Node

namespace Grammar

/-! ### Grammars -/

theorem branchOfJson_toJson (e : String × Node String) :
    branchOfJson (e.1, e.2.toJson) = .ok e := by
  unfold branchOfJson
  rw [Node.ofJson_toJson]

theorem ofBranches_toJson (g : Grammar String) :
    ofBranches (g.branches.entries.map fun e => (e.1, e.2.toJson)) =
      .ok ⟨g.branches, mainBranch⟩ := by
  have hentries : (g.branches.entries.map fun e => (e.1, e.2.toJson)).mapM branchOfJson =
      .ok g.branches.entries := by
    rw [mapM_eq_ok_iff, List.forall₂_map_left_iff, List.forall₂_same]
    exact fun e _ => branchOfJson_toJson e
  unfold ofBranches
  rw [hentries]
  show Except.ok (⟨.ofList g.branches.entries, mainBranch⟩ : Grammar String) = _
  rw [Table.ofList_of_perm (.refl _)]

/-- An object of arrays is read as a dictionary of branches or not at all. -/
theorem ofJson_of_arrays {fields : List (String × Json)}
    (harrays : ∀ f ∈ fields, ∃ items, f.2 = .array items)
    (hmain : fields.lookup mainBranch = none) :
    ∃ m, ofJson (.object fields) = .error (.misfit m) := by
  have htext : ∀ key text, fields.lookup key ≠ some (.text text) := by
    intro key text h
    obtain ⟨l₁, l₂, hfields, -⟩ := List.lookup_eq_some_iff.mp h
    obtain ⟨items, hitems⟩ := harrays (key, .text text) (by simp [hfields])
    cases hitems
  cases hread : readJson (.object fields) with
  | error m => exact ⟨m, by rw [ofJson, hread]⟩
  | ok g =>
      rw [readJson, hmain, if_neg (by simp)] at hread
      split_ifs at hread
      -- A directive would hold a name or a script, which are no arrays.
      obtain ⟨node, hnode, -⟩ := ofMain_eq_ok_iff.mp hread
      rw [Node.ofJson, Node.read, map_eq_ok_iff] at hnode
      obtain ⟨a, ha, -⟩ := hnode
      rcases Node.directive_eq_ok ha with ⟨name, c, hname, -⟩ | ⟨text, -, hscript, -⟩
      · exact absurd hname (htext "branch" name)
      · rcases Option.or_eq_some_iff.mp hscript with hscript | ⟨-, hps⟩
        · exact absurd hscript (htext "script" text)
        · exact absurd hps (htext "ps" text)

theorem lookup_toJson (g : Grammar String) (name : String) :
    (g.branches.entries.map fun e => (e.1, e.2.toJson)).lookup name =
      (g.branch? name).map Node.toJson :=
  Table.lookup_map_value Node.toJson g.branches.entries name

theorem ofJson_toJson_of_main {g : Grammar String} (hmain : (g.branch? mainBranch).isSome) :
    ofJson g.toJson = .ok ⟨g.branches, mainBranch⟩ := by
  rw [ofJson_eq_ok_iff, toJson, readJson, lookup_toJson, Option.isSome_map, if_pos hmain,
    ofBranches_toJson]

theorem ofJson_toJson_of_no_main {g : Grammar String} (hmain : g.branch? mainBranch = none) :
    ∃ m, ofJson g.toJson = .error (.misfit m) := by
  refine ofJson_of_arrays ?_ ?_
  · intro f hf
    obtain ⟨e, -, rfl⟩ := List.mem_map.mp hf
    exact ⟨_, rfl⟩
  · rw [lookup_toJson, hmain]
    rfl

/-- A grammar that can be compiled starts from its main branch, which it has. -/
def StartsFromMain (g : Grammar String) : Prop :=
  g.entry = mainBranch ∧ (g.branch? mainBranch).isSome

theorem startsFromMain_of_ofMain {value : Json} {g : Grammar String} (h : ofMain value = .ok g) :
    g.StartsFromMain := by
  obtain ⟨node, -, rfl⟩ := ofMain_eq_ok_iff.mp h
  refine ⟨rfl, ?_⟩
  unfold branch?
  rw [Table.get?_insert, if_pos rfl]
  rfl

theorem startsFromMain_of_ofJson {value : Json} {g : Grammar String} (h : ofJson value = .ok g) :
    g.StartsFromMain := by
  have hread : readJson value = .ok g := ofJson_eq_ok_iff.mp h
  cases value with
  | object fields =>
      rw [readJson] at hread
      split_ifs at hread with hmain hdirective
      · obtain ⟨hentry, hnames, -⟩ := ofBranches_eq_ok hread
        exact ⟨hentry, (hnames mainBranch).mpr (Table.isSome_lookup_iff.mp hmain)⟩
      · exact startsFromMain_of_ofMain hread
  | null | boolean _ | number _ | text _ | array _ => exact startsFromMain_of_ofMain hread

theorem startsFromMain_of_ofScript {script : String} {g : Grammar String}
    (h : ofScript script = .ok g) : g.StartsFromMain := by
  unfold ofScript at h
  split at h
  · obtain rfl := Except.ok.inj h
    refine ⟨rfl, ?_⟩
    rw [ofParts, Draft.branch?_grammar_main]
    rfl
  · cases h

theorem startsFromMain_of_compile {source : Json} {g : Grammar String}
    (h : compile source = .ok g) : g.StartsFromMain := by
  unfold compile at h
  split at h
  · exact startsFromMain_of_ofScript h
  · exact startsFromMain_of_ofJson h

/-- **What is written is read back.**  A node is read back from its JSON form.  A grammar that has a
main branch is read back with the same branches and with the main branch as its entry, which is the
entry already if the grammar was compiled from a script or from JSON.  A grammar without a main
branch is not read back, whatever its branches are called. -/
theorem readBack_toJson :
    (∀ node : Node String, Node.ofJson node.toJson = .ok node) ∧
      (∀ g : Grammar String, (g.branch? mainBranch).isSome →
        ofJson g.toJson = .ok ⟨g.branches, mainBranch⟩) ∧
      (∀ g : Grammar String, (∃ source, compile source = .ok g) ∨ (∃ value, ofJson value = .ok g) →
        ofJson g.toJson = .ok g) ∧
      ∀ g : Grammar String, g.branch? mainBranch = none →
        ∃ m, ofJson g.toJson = .error (.misfit m) := by
  refine ⟨Node.ofJson_toJson, fun g => ofJson_toJson_of_main, ?_, fun g => ofJson_toJson_of_no_main⟩
  intro g hg
  have hstarts : g.StartsFromMain := by
    rcases hg with ⟨source, h⟩ | ⟨value, h⟩
    · exact startsFromMain_of_compile h
    · exact startsFromMain_of_ofJson h
  rw [ofJson_toJson_of_main hstarts.2, ← hstarts.1]

/-- Branches that are called like the keys of directives are branches nevertheless. -/
example :
    let branches : Table (Node String) :=
      .ofList [("main", [.reference "then" .nothing]), ("script", []), ("then", [.literal "x"])]
    ofJson (toJson ⟨branches, "then"⟩) = .ok ⟨branches, mainBranch⟩ := by
  decide +kernel

end Grammar
end Typeahead
