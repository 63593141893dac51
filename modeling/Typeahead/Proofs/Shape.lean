import Typeahead.Proofs.Reading

/-! # The shape of nodes

`Json.IsNode` says which values are nodes, by their shape alone: strings, arrays of nodes, and
objects that hold a reference or a script and nothing beside it.  The reader accepts exactly these
(`Node.isNode_of_readAlternative`, `Node.exists_readAlternative`).  What it has read is written in
the canonical form of the value, which is the value itself but for what can be said in two ways
(`Json.canonical`). -/

namespace Typeahead
namespace Json

/-! ### Nodes among the values -/

/-- The value is a node, or an alternative of a node. -/
inductive IsNode : Json → Prop
  | text (text : String) : IsNode (.text text)
  | array {items : List Json} (h : ∀ item ∈ items, IsNode item) : IsNode (.array items)
  /-- The name of a branch, and what follows it, if `then` is there and not null. -/
  | reference {fields : List (String × Json)} {name : String}
      (hname : fields.lookup "branch" = some (.text name))
      (hkeys : ∀ f ∈ fields, f.1 ∈ ["branch", "then"])
      (hthen : ∀ value, fields.lookup "then" = some value → value ≠ .null → IsNode value) :
      IsNode (.object fields)
  /-- A script, which stands in `ps` only if there is no `script`. -/
  | script {fields : List (String × Json)} {text : String} (hname : fields.lookup "branch" = none)
      (hscript : (fields.lookup "script").or (fields.lookup "ps") = some (.text text))
      (hkeys : ∀ f ∈ fields, f.1 ∈ ["script", "ps"]) : IsNode (.object fields)

/-- The value is a dictionary of branches: an object with a main branch, all of whose fields are
nodes. -/
def IsDictionary (value : Json) : Prop :=
  ∃ fields, value = .object fields ∧ Grammar.mainBranch ∈ fields.map Prod.fst ∧
    ∀ f ∈ fields, IsNode f.2

/-! ### Canonical forms -/

/-- A value as the only item of an array, unless it is an array. -/
def wrapped : Json → Json
  | .array items => .array items
  | value => .array [value]

/-- The field `then` in its canonical form, given that of its value as an alternative. -/
def canonicalNext (value canonicalValue : Json) : List (String × Json) :=
  match value with
  | .null => []
  | .text _ => [("then", value)]
  | _ => [("then", canonicalValue.wrapped)]

mutual

/-- The canonical form of an alternative: a null `then` is left out, a directive that follows a
reference is wrapped in an array, and a script stands in `script`. -/
def canonicalItem : Json → Json
  | .array items => .array (canonicalItems items)
  | .object fields =>
    match fields.lookup "branch" with
    | some name => .object (("branch", name) :: canonicalThen fields)
    | none =>
      let script? := (fields.lookup "script").or (fields.lookup "ps")
      .object (script?.toList.map fun script => ("script", script))
  | value => value

/-- The canonical forms of several alternatives. -/
def canonicalItems : List Json → List Json
  | [] => []
  | item :: rest => canonicalItem item :: canonicalItems rest

/-- The field `then` of an object in its canonical form, if there is one. -/
def canonicalThen : List (String × Json) → List (String × Json)
  | [] => []
  | (key, value) :: rest =>
    if key = "then" then canonicalNext value (canonicalItem value) else canonicalThen rest

end

/-- The canonical form of a node: that of an alternative, in an array. -/
def canonical (value : Json) : Json := (canonicalItem value).wrapped

end Json

namespace Node

open Json (IsNode canonical canonicalItem canonicalItems canonicalNext canonicalThen)

/-! ### What is read is a node -/

theorem toJson_ofAlternative (a : Alternative String) :
    (ofAlternative a).toJson = (alternativeToJson a).wrapped := by
  cases a <;> rfl

/-- What follows a reference is a node if it is read as one, and is written in its canonical form if
the node is. -/
theorem isNode_of_continuation {location : Location} {value : Json} {next : Continuation String}
    (ih : ∀ a, readAlternative location value = .ok a →
      IsNode value ∧ alternativeToJson a = canonicalItem value)
    (h : continuation value (read location value) = .ok next) :
    (value ≠ .null → IsNode value) ∧
      continuationToJson next = canonicalNext value (canonicalItem value) := by
  unfold continuation at h
  split at h
  · obtain rfl := Except.ok.inj h
    exact ⟨fun hne => absurd rfl hne, rfl⟩
  · rename_i text
    obtain rfl := Except.ok.inj h
    exact ⟨fun _ => .text text, rfl⟩
  · rename_i hnull htext
    obtain ⟨node, hnode, rfl⟩ := map_eq_ok_iff.mp h
    obtain ⟨a, ha, rfl⟩ := read_eq_ok_iff.mp hnode
    obtain ⟨hvalue, hjson⟩ := ih a ha
    refine ⟨fun _ => hvalue, ?_⟩
    have hnext : canonicalNext value (canonicalItem value) =
        [("then", (canonicalItem value).wrapped)] := by
      unfold canonicalNext
      split
      · exact absurd rfl hnull
      · exact absurd rfl (htext _)
      · rfl
    rw [hnext, ← hjson, ← toJson_ofAlternative]
    rfl

mutual

theorem isNode_of_readAlternative : ∀ {value : Json} {location : Location} {a : Alternative String},
    readAlternative location value = .ok a →
      IsNode value ∧ alternativeToJson a = canonicalItem value
  | .null, _, _, h => by cases h
  | .boolean _, _, _, h => by cases h
  | .number _, _, _, h => by cases h
  | .text text, _, _, h => by
      obtain rfl := Except.ok.inj h
      exact ⟨.text text, rfl⟩
  | .array items, _, _, h => by
      rw [readAlternative, map_eq_ok_iff] at h
      obtain ⟨node, hnode, rfl⟩ := h
      obtain ⟨hitems, hjson⟩ := isNode_of_readItems hnode
      refine ⟨.array hitems, ?_⟩
      rw [alternativeToJson, canonicalItem, hjson]
  | .object fields, _, _, h => by
      rw [readAlternative] at h
      rcases directive_eq_ok h with ⟨name, next, hname, hkeys, hnext, rfl⟩ |
        ⟨text, hname, hscript, hkeys, rfl⟩
      · obtain ⟨hthen, hjson⟩ := isNode_of_readThen hnext
        refine ⟨.reference hname hkeys hthen, ?_⟩
        rw [alternativeToJson, canonicalItem, hname, hjson]
      · refine ⟨.script hname hscript hkeys, ?_⟩
        rw [alternativeToJson, canonicalItem, hname, hscript]
        rfl

theorem isNode_of_readItems : ∀ {items : List Json} {location : Location} {index : ℕ}
    {node : Node String}, readItems location index items = .ok node →
      (∀ item ∈ items, IsNode item) ∧ itemsToJson node = canonicalItems items
  | [], _, _, _, h => by
      obtain rfl := Except.ok.inj h
      exact ⟨by simp, rfl⟩
  | item :: rest, _, _, _, h => by
      rw [readItems] at h
      obtain ⟨a, ha, h⟩ := bind_eq_ok_iff.mp h
      obtain ⟨node, hnode, h⟩ := bind_eq_ok_iff.mp h
      obtain rfl := Except.ok.inj h
      obtain ⟨hitem, hjson⟩ := isNode_of_readAlternative ha
      obtain ⟨hrest, hjsons⟩ := isNode_of_readItems hnode
      refine ⟨List.forall_mem_cons.mpr ⟨hitem, hrest⟩, ?_⟩
      rw [itemsToJson, canonicalItems, hjson, hjsons]

theorem isNode_of_readThen : ∀ {fields : List (String × Json)} {location : Location}
    {next : Continuation String}, readThen location fields = .ok next →
      (∀ value, fields.lookup "then" = some value → value ≠ .null → IsNode value) ∧
        continuationToJson next = canonicalThen fields
  | [], _, _, h => by
      obtain rfl := Except.ok.inj h
      exact ⟨by simp, rfl⟩
  | (key, value) :: rest, _, _, h => by
      rw [readThen] at h
      rw [Table.lookup_cons_eq, canonicalThen]
      by_cases hkey : key = "then"
      · rw [if_pos hkey] at h
        rw [if_pos hkey.symm, if_pos hkey]
        obtain ⟨hvalue, hjson⟩ :=
          isNode_of_continuation (fun a ha => isNode_of_readAlternative ha) h
        refine ⟨?_, hjson⟩
        rintro _ ⟨⟩
        exact hvalue
      · rw [if_neg hkey] at h
        rw [if_neg (Ne.symm hkey), if_neg hkey]
        exact isNode_of_readThen h

end

/-! ### Every node is read -/

theorem exists_readItems {items : List Json}
    (h : ∀ item ∈ items, ∀ location, ∃ a, readAlternative location item = .ok a)
    (location : Location) (index : ℕ) : ∃ node, readItems location index items = .ok node := by
  induction items generalizing index with
  | nil => exact ⟨[], by rw [readItems]⟩
  | cons item items ih =>
      obtain ⟨hitem, hitems⟩ := List.forall_mem_cons.mp h
      obtain ⟨a, ha⟩ := hitem (location ++ [.item index])
      obtain ⟨node, hnode⟩ := ih hitems (index + 1)
      exact ⟨a :: node, by rw [readItems, ha, hnode]; rfl⟩

theorem exists_continuation {location : Location} {value : Json}
    (h : value ≠ .null → ∃ a, readAlternative location value = .ok a) :
    ∃ next, continuation value (read location value) = .ok next := by
  unfold continuation
  split
  · exact ⟨.nothing, rfl⟩
  · exact ⟨.text _, rfl⟩
  · rename_i hnull _
    obtain ⟨a, ha⟩ := h hnull
    exact ⟨.node (ofAlternative a), by rw [read_eq_ok_iff.mpr ⟨a, ha, rfl⟩]; rfl⟩

theorem exists_readAlternative {value : Json} (h : IsNode value) :
    ∀ location, ∃ a, readAlternative location value = .ok a := by
  induction h with
  | text text => exact fun _ => ⟨.literal text, by rw [readAlternative]⟩
  | array _ ih =>
      intro location
      obtain ⟨node, hnode⟩ := exists_readItems ih location 0
      exact ⟨.nested node, by rw [readAlternative, hnode]; rfl⟩
  | @reference fields name hname hkeys _ ih =>
      intro location
      rw [readAlternative, directive_of_reference hname hkeys]
      have hnext : ∃ next, readThen location fields = .ok next := by
        rw [readThen_eq]
        cases hthen : fields.lookup "then" with
        | none => exact ⟨.nothing, rfl⟩
        | some value => exact exists_continuation fun hne => ih value hthen hne _
      obtain ⟨next, hnext⟩ := hnext
      exact ⟨.reference name next, by rw [hnext]; rfl⟩
  | @script fields text hname hscript hkeys =>
      intro location
      exact ⟨.script text, by rw [readAlternative, directive_of_script hname hscript hkeys]⟩

theorem isNode_iff {value : Json} : (∃ node, ofJson value = .ok node) ↔ IsNode value := by
  constructor
  · rintro ⟨node, h⟩
    obtain ⟨a, ha, -⟩ := read_eq_ok_iff.mp h
    exact (isNode_of_readAlternative ha).1
  · intro h
    obtain ⟨a, ha⟩ := exists_readAlternative h []
    exact ⟨ofAlternative a, read_eq_ok_iff.mpr ⟨a, ha, rfl⟩⟩

theorem toJson_of_ofJson {value : Json} {node : Node String} (h : ofJson value = .ok node) :
    node.toJson = canonical value := by
  obtain ⟨a, ha, rfl⟩ := read_eq_ok_iff.mp h
  rw [toJson_ofAlternative, (isNode_of_readAlternative ha).2]
  rfl

end Node

namespace Grammar

open Json (IsNode IsDictionary canonical)

variable {fields : List (String × Json)}

/-! ### Grammars -/

/-- A directive has none of the keys of a dictionary, and is told by those that it has. -/
theorem looksLikeDirective_of_isNode (h : IsNode (.object fields)) :
    mainBranch ∉ fields.map Prod.fst ∧ looksLikeDirective fields := by
  rw [← Table.isSome_lookup_iff]
  cases h with
  | reference hname hkeys _ =>
      rw [Table.lookup_eq_none_of_keys hkeys (by decide)]
      exact ⟨by simp, by simp [looksLikeDirective, hname]⟩
  | script hname hscript hkeys =>
      rw [Table.lookup_eq_none_of_keys hkeys (by decide)]
      refine ⟨by simp, ?_⟩
      rcases Option.or_eq_some_iff.mp hscript with h | ⟨-, h⟩
      · simp [looksLikeDirective, h]
      · simp [looksLikeDirective, h]

theorem exists_ofBranches_iff :
    (∃ g, ofBranches fields = .ok g) ↔ ∀ f ∈ fields, IsNode f.2 := by
  have hbranch : ∀ f : String × Json, (∃ e, branchOfJson f = .ok e) ↔ IsNode f.2 := by
    intro f
    rw [← Node.isNode_iff]
    constructor
    · rintro ⟨e, he⟩
      exact ⟨e.2, (branchOfJson_eq_ok_iff.mp he).2⟩
    · rintro ⟨node, hnode⟩
      exact ⟨(f.1, node), branchOfJson_eq_ok_iff.mpr ⟨rfl, hnode⟩⟩
  simp only [← hbranch, ← exists_mapM_eq_ok_iff]
  constructor
  · rintro ⟨g, h⟩
    obtain ⟨es, hes, -⟩ := bind_eq_ok_iff.mp h
    exact ⟨es, hes⟩
  · rintro ⟨es, hes⟩
    exact ⟨_, bind_eq_ok_iff.mpr ⟨es, hes, rfl⟩⟩

theorem exists_ofMain_iff {value : Json} : (∃ g, ofMain value = .ok g) ↔ IsNode value := by
  rw [← Node.isNode_iff]
  constructor
  · rintro ⟨g, h⟩
    obtain ⟨node, hnode, -⟩ := ofMain_eq_ok_iff.mp h
    exact ⟨node, hnode⟩
  · rintro ⟨node, hnode⟩
    exact ⟨_, ofMain_eq_ok_iff.mpr ⟨node, hnode, rfl⟩⟩

theorem readJson_of_main (h : mainBranch ∈ fields.map Prod.fst) :
    readJson (.object fields) = ofBranches fields := by
  rw [readJson, if_pos (Table.isSome_lookup_iff.mpr h)]

theorem readJson_of_no_main {value : Json}
    (h : ∀ fields, value = .object fields → mainBranch ∉ fields.map Prod.fst)
    {g : Grammar String} : readJson value = .ok g ↔ ofMain value = .ok g := by
  cases value with
  | object fields =>
      rw [readJson, if_neg (mt Table.isSome_lookup_iff.mp (h fields rfl))]
      split_ifs with hdirective
      · rfl
      · refine iff_of_false nofun ?_
        intro h
        have hnode := exists_ofMain_iff.mp ⟨g, h⟩
        exact absurd (looksLikeDirective_of_isNode hnode).2 hdirective
  | null | boolean _ | number _ | text _ | array _ => rfl

theorem isDictionary_iff :
    IsDictionary (.object fields) ↔
      mainBranch ∈ fields.map Prod.fst ∧ ∀ f ∈ fields, IsNode f.2 := by
  constructor
  · rintro ⟨_, ⟨⟩, h⟩
    exact h
  · exact fun h => ⟨fields, rfl, h⟩

/-- What is no dictionary of branches is read as the main branch, or not at all. -/
theorem ofJson_of_not_isDictionary {value : Json} (h : ¬ IsDictionary value) {g : Grammar String} :
    ofJson value = .ok g ↔
      ∃ node, Node.ofJson value = .ok node ∧
        ⟨Table.empty.insert mainBranch node, mainBranch⟩ = g := by
  rw [ofJson_eq_ok_iff, ← ofMain_eq_ok_iff]
  by_cases hmain : ∃ fields, value = .object fields ∧ mainBranch ∈ fields.map Prod.fst
  · -- Neither reader accepts an object with a main branch but other fields that are no nodes.
    obtain ⟨fields, rfl, hmain⟩ := hmain
    rw [readJson_of_main hmain]
    refine ⟨fun hread => ?_, fun hread => ?_⟩
    · have hnodes := exists_ofBranches_iff.mp ⟨g, hread⟩
      exact absurd (isDictionary_iff.mpr ⟨hmain, hnodes⟩) h
    · have hnode := exists_ofMain_iff.mp ⟨g, hread⟩
      exact absurd hmain (looksLikeDirective_of_isNode hnode).1
  · refine readJson_of_no_main ?_
    rintro fields rfl hkey
    exact hmain ⟨fields, rfl, hkey⟩

theorem exists_ofJson_iff {value : Json} :
    (∃ g, ofJson value = .ok g) ↔ IsDictionary value ∨ (¬ IsDictionary value ∧ IsNode value) := by
  by_cases h : IsDictionary value
  · obtain ⟨fields, rfl, hmain, hnodes⟩ := h
    simp only [ofJson_eq_ok_iff, readJson_of_main hmain, exists_ofBranches_iff]
    exact ⟨fun _ => .inl (isDictionary_iff.mpr ⟨hmain, hnodes⟩), fun _ => hnodes⟩
  · simp only [ofJson_of_not_isDictionary h, ← ofMain_eq_ok_iff, exists_ofMain_iff]
    simp [h]

/-- **What the reader accepts, and what it makes of it.**  A value is read as a node exactly if it
is a node, and the node is written in the canonical form of the value.  A value is read as a grammar
exactly if it is a dictionary of branches, and then its keys are the names of the branches and each
branch is what a value of its key is read as; or if it is no dictionary but a node, which is then
the only branch. -/
theorem reads_iff_isNode :
    (∀ value, (∃ node, Node.ofJson value = .ok node) ↔ IsNode value) ∧
      (∀ value node, Node.ofJson value = .ok node → node.toJson = canonical value) ∧
      (∀ value, (∃ g, ofJson value = .ok g) ↔
        IsDictionary value ∨ (¬ IsDictionary value ∧ IsNode value)) ∧
      (∀ fields g, IsDictionary (.object fields) → ofJson (.object fields) = .ok g →
        g.entry = mainBranch ∧ (∀ name, (g.branch? name).isSome ↔ name ∈ fields.map Prod.fst) ∧
          ∀ name node, g.branch? name = some node →
            ∃ value, (name, value) ∈ fields ∧ Node.ofJson value = .ok node) ∧
      ∀ value g, ¬ IsDictionary value → ofJson value = .ok g →
        ∃ node, Node.ofJson value = .ok node ∧
          g = ⟨Table.empty.insert mainBranch node, mainBranch⟩ := by
  refine ⟨fun _ => Node.isNode_iff, fun _ _ => Node.toJson_of_ofJson, fun _ => exists_ofJson_iff,
    ?_, ?_⟩
  · intro fields g hdictionary h
    rw [ofJson_eq_ok_iff, readJson_of_main (isDictionary_iff.mp hdictionary).1] at h
    exact ofBranches_eq_ok h
  · intro value g hdictionary h
    obtain ⟨node, hnode, hg⟩ := (ofJson_of_not_isDictionary hdictionary).mp h
    exact ⟨node, hnode, hg.symm⟩

/-- Everything that can be said in two ways, at once. -/
example :
    canonical (.object [("branch", .text "a"), ("then", .object [("ps", .text "b")])]) =
      .array [.object [("branch", .text "a"),
        ("then", .array [.object [("script", .text "b")]])]] := by rfl

end Grammar
end Typeahead
