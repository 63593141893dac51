import Typeahead.Grammar.Tagged

/-! # Reading back tagged forms

A tagged form names the case of every choice, so that the reader never has to guess one: literals,
nested nodes, references and scripts are told apart by their tags, and so are a continuation that is
absent, one that is a text and one that is a node.  Every alternative is read back at every depth
(`Node.items?_tagged`), and with its entry the whole grammar is (`Grammar.ofTagged?_of_written`),
also if its branches are written in another order. -/

namespace Typeahead
namespace Node

/-! ### Nodes -/

mutual

theorem alternative?_tagged :
    ∀ a : Alternative String, alternative? (alternativeToTagged a) = some a
  | .literal text => by
      rw [alternativeToTagged, alternative?]
      rfl
  | .nested node => by
      rw [alternativeToTagged, alternative?, if_neg (by decide), if_pos rfl, ofTagged?,
        alternativesField?, if_pos rfl, alternatives?, items?_tagged node]
      rfl
  | .reference name next => by
      rw [alternativeToTagged, alternative?, if_neg (by decide), if_neg (by decide), if_pos rfl,
        directive?, if_pos rfl, reference?, next?, if_neg (by decide), next?, if_pos rfl,
        continuation?_tagged next]
      rfl
  | .script text => by
      rw [alternativeToTagged, alternative?, if_neg (by decide), if_neg (by decide), if_pos rfl,
        directive?, if_neg (by decide), if_pos rfl]
      rfl

theorem continuation?_tagged :
    ∀ next : Continuation String, continuation? (continuationToTagged next) = some next
  | .nothing => by rw [continuationToTagged, continuation?]
  | .text text => by
      rw [continuationToTagged, continuation?]
      rfl
  | .node node => by
      rw [continuationToTagged, continuation?, if_neg (by decide), if_pos rfl, ofTagged?,
        alternativesField?, if_pos rfl, alternatives?, items?_tagged node]
      rfl

theorem items?_tagged : ∀ node : Node String, items? (itemsToTagged node) = some node
  | a :: node => by
      rw [itemsToTagged, items?, alternative?_tagged a, items?_tagged node]
      rfl
  | [] => by rw [itemsToTagged, items?]

end

theorem ofTagged?_toTagged (node : Node String) : ofTagged? node.toTagged = some node := by
  rw [toTagged, ofTagged?, alternativesField?, if_pos rfl, alternatives?, items?_tagged]

end Node

namespace Grammar

/-! ### Grammars -/

/-- The tagged forms of a grammar, which are one for each order of its branches. -/
inductive WrittenTagged (g : Grammar String) : Json → Prop
  | intro {entries : List (String × Node String)} (h : entries.Perm g.branches.entries) :
      WrittenTagged g (.object
        [("branches", .object (entries.map fun e => (e.1, Node.toTagged e.2))),
          ("entry", .text g.entry)])

theorem writtenTagged_toTagged (g : Grammar String) : g.WrittenTagged g.toTagged := .intro (.refl _)

theorem mapM_tagged (entries : List (String × Node String)) :
    (entries.map fun e => (e.1, Node.toTagged e.2)).mapM
      (fun f => do return (f.1, ← Node.ofTagged? f.2)) = some entries := by
  induction entries with
  | nil => rfl
  | cons e entries ih =>
      rw [List.map_cons, List.mapM_cons, ih, Node.ofTagged?_toTagged]
      rfl

theorem branchesOfTagged?_tagged {entries : List (String × Node String)}
    {branches : Table (Node String)} (h : entries.Perm branches.entries) :
    branchesOfTagged? (.object (entries.map fun e => (e.1, Node.toTagged e.2))) =
      some branches := by
  rw [branchesOfTagged?, mapM_tagged, ← Table.ofList_of_perm h]
  rfl

theorem ofTagged?_of_written {g : Grammar String} {value : Json} (h : g.WrittenTagged value) :
    ofTagged? value = some g := by
  obtain ⟨h⟩ := h
  rw [ofTagged?]
  show ofFields? _ _ = _
  rw [ofFields?, branchesOfTagged?_tagged h]
  rfl

/-- **The tagged form is read back whole.**  A node is read back from its tagged form, and so is a
grammar with all its branches and its entry, whether the entry is a branch or not.  In whatever
order the branches are written, the same grammar is read, so that two grammars never share a
form. -/
theorem readBack_tagged :
    (∀ node : Node String, Node.ofTagged? node.toTagged = some node) ∧
      (∀ g : Grammar String, ofTagged? g.toTagged = some g) ∧
      (∀ (g : Grammar String) value, g.WrittenTagged value → ofTagged? value = some g) ∧
      ∀ (g g' : Grammar String) value, g.WrittenTagged value → g'.WrittenTagged value → g = g' := by
  refine ⟨Node.ofTagged?_toTagged, fun g => ofTagged?_of_written g.writtenTagged_toTagged,
    fun g value => ofTagged?_of_written, ?_⟩
  intro g g' value h h'
  exact Option.some.inj ((ofTagged?_of_written h).symm.trans (ofTagged?_of_written h'))

/-- Branches that are called like tags and fields are branches nevertheless, and an entry that is no
branch is kept. -/
example :
    let g : Grammar String :=
      ⟨.ofList [("Branch", [.reference "then" .nothing, .reference "then" (.text "Text")]),
        ("then", [.nested [], .reference "Literal" (.node [.script "Script"])])], "nowhere"⟩
    ofTagged? g.toTagged = some g := by
  decide +kernel

end Grammar
end Typeahead
