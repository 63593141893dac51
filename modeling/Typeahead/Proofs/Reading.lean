import Typeahead.Grammar.Prebuilt
import Typeahead.Proofs.Outcome

/-! # Reading nodes from JSON

An object is a reference or a script, according to the fields that its keys find
(`directive_of_reference`, `directive_of_script`), and nothing else is a directive
(`directive_eq_ok`).  What follows a reference is what its field `then` finds
(`readThen_eq`), so that no law of the reader has to follow a list of fields.  A node is read as an
alternative is, but that an array stands for the node itself and everything else for a node of one
alternative (`read_eq_ok_iff`).  A grammar that is read from a dictionary of branches has exactly
its keys as names (`Grammar.ofBranches_eq_ok`). -/

namespace Typeahead
namespace Table

variable {α β : Type}

theorem lookup_map_value (f : α → β) (l : List (String × α)) (key : String) :
    (l.map fun e => (e.1, f e.2)).lookup key = (l.lookup key).map f := by
  induction l with
  | nil => rfl
  | cons e l ih =>
      obtain ⟨k, a⟩ := e
      rw [List.map_cons, lookup_cons_eq, lookup_cons_eq, ih]
      split <;> rfl

theorem isSome_lookup_iff {l : List (String × α)} {key : String} :
    (l.lookup key).isSome ↔ key ∈ l.map Prod.fst := by
  simp [List.lookup_isSome_iff]

theorem lookup_eq_none_of_keys {l : List (String × α)} {allowed : List String}
    (h : ∀ e ∈ l, e.1 ∈ allowed) {key : String} (hkey : key ∉ allowed) : l.lookup key = none := by
  rw [List.lookup_eq_none_iff]
  intro e he
  rw [bne_iff_ne]
  rintro rfl
  exact hkey (h e he)

theorem get?_ofList (es : List (String × α)) (key : String) :
    (ofList es).get? key = es.reverse.lookup key := by
  rw [ofList, get?_insertAll, get?_empty, Option.or_none]

theorem isSome_get?_ofList {es : List (String × α)} {key : String} :
    ((ofList es).get? key).isSome ↔ key ∈ es.map Prod.fst := by
  rw [get?_ofList, isSome_lookup_iff, List.map_reverse, List.mem_reverse]

theorem mem_of_get?_ofList {es : List (String × α)} {key : String} {value : α}
    (h : (ofList es).get? key = some value) : (key, value) ∈ es := by
  rw [get?_ofList] at h
  obtain ⟨l₁, l₂, hes, -⟩ := List.lookup_eq_some_iff.mp h
  rw [← List.mem_reverse, hes]
  simp

theorem insertAll_append (t : Table α) (l m : List (String × α)) :
    t.insertAll (l ++ m) = (t.insertAll l).insertAll m := by
  unfold insertAll
  rw [List.foldl_append]

/-- If the keys are distinct, a table does not depend on the order of its entries. -/
theorem ofList_eq_of_perm {l m : List (String × α)} (h : l.Perm m)
    (hnodup : (m.map Prod.fst).Nodup) : ofList l = ofList m := by
  refine ext_get? fun key => ?_
  have hperm : m.reverse.Perm l.reverse :=
    m.reverse_perm.trans (h.symm.trans l.reverse_perm.symm)
  have hnodup' : (m.reverse.map Prod.fst).Nodup :=
    (m.reverse_perm.map Prod.fst).nodup_iff.mpr hnodup
  rw [get?_ofList, get?_ofList, lookup_eq_of_perm hperm hnodup']

end Table

namespace Node

variable {location : Location} {fields : List (String × Json)}
variable {next : Except Misfit (Continuation String)}

theorem onlyKeys_eq_ok_iff {allowed : List String} :
    onlyKeys allowed location fields = .ok () ↔ ∀ f ∈ fields, f.1 ∈ allowed := by
  unfold onlyKeys
  split
  · rename_i key value hfind
    have hmem := List.mem_of_find?_eq_some hfind
    have hstray : key ∉ allowed := by simpa using List.find?_some hfind
    refine ⟨fun h => ?_, fun h => absurd (h _ hmem) hstray⟩
    cases h
  · rename_i hfind
    have hall : ∀ f ∈ fields, f.1 ∈ allowed := by simpa using hfind
    exact ⟨fun _ => hall, fun _ => rfl⟩

/-! ### Directives -/

theorem directive_of_reference {name : String} (hname : fields.lookup "branch" = some (.text name))
    (hkeys : ∀ f ∈ fields, f.1 ∈ ["branch", "then"]) :
    directive location fields next = .reference name <$> next := by
  have hscript : fields.lookup "script" = none := Table.lookup_eq_none_of_keys hkeys (by decide)
  have hps : fields.lookup "ps" = none := Table.lookup_eq_none_of_keys hkeys (by decide)
  unfold directive
  simp only [hname, hscript, hps, Option.or_none, onlyKeys_eq_ok_iff.mpr hkeys]
  cases next <;> rfl

theorem directive_of_script {text : String} (hname : fields.lookup "branch" = none)
    (hscript : (fields.lookup "script").or (fields.lookup "ps") = some (.text text))
    (hkeys : ∀ f ∈ fields, f.1 ∈ ["script", "ps"]) :
    directive location fields next = .ok (.script text) := by
  unfold directive
  simp only [hname, hscript, onlyKeys_eq_ok_iff.mpr hkeys]
  rfl

theorem directive_eq_ok {a : Alternative String} (h : directive location fields next = .ok a) :
    (∃ name c, fields.lookup "branch" = some (.text name) ∧
        (∀ f ∈ fields, f.1 ∈ ["branch", "then"]) ∧ next = .ok c ∧ a = .reference name c) ∨
      ∃ text, fields.lookup "branch" = none ∧
        (fields.lookup "script").or (fields.lookup "ps") = some (.text text) ∧
        (∀ f ∈ fields, f.1 ∈ ["script", "ps"]) ∧ a = .script text := by
  unfold directive at h
  split at h
  · cases h
  · rename_i name hname hscript
    obtain ⟨⟨⟩, hkeys, h⟩ := bind_eq_ok_iff.mp h
    obtain ⟨c, hc, h⟩ := bind_eq_ok_iff.mp h
    exact .inl ⟨name, c, hname, onlyKeys_eq_ok_iff.mp hkeys, hc, (Except.ok.inj h).symm⟩
  · cases h
  · rename_i text hname hscript
    obtain ⟨⟨⟩, hkeys, h⟩ := bind_eq_ok_iff.mp h
    exact .inr ⟨text, hname, hscript, onlyKeys_eq_ok_iff.mp hkeys, (Except.ok.inj h).symm⟩
  · cases h
  · cases h

theorem readThen_eq (location : Location) (fields : List (String × Json)) :
    readThen location fields =
      match fields.lookup "then" with
      | none => .ok .nothing
      | some value => continuation value (read (location ++ [.field "then"]) value) := by
  induction fields with
  | nil => rw [readThen, List.lookup_nil]
  | cons f fields ih =>
      obtain ⟨key, value⟩ := f
      rw [readThen, Table.lookup_cons_eq]
      by_cases hkey : key = "then"
      · rw [if_pos hkey, if_pos hkey.symm]
      · rw [if_neg hkey, if_neg (Ne.symm hkey), ih]

/-! ### Nodes and alternatives -/

/-- The node that an alternative stands for when it stands on its own. -/
def ofAlternative : Alternative String → Node String
  | .nested node => node
  | a => [a]

/-- A node is read as an alternative is. -/
theorem read_eq_ok_iff {value : Json} {node : Node String} :
    read location value = .ok node ↔
      ∃ a, readAlternative location value = .ok a ∧ ofAlternative a = node := by
  cases value with
  | null | boolean _ | number _ => simp [read, readAlternative]
  | text text => simp [read, readAlternative, ofAlternative]
  | array items =>
      rw [read, readAlternative]
      simp only [map_eq_ok_iff]
      constructor
      · intro h
        exact ⟨.nested node, ⟨node, h, rfl⟩, rfl⟩
      · rintro ⟨_, ⟨node', h, rfl⟩, rfl⟩
        exact h
  | object fields =>
      rw [read, readAlternative, map_eq_ok_iff]
      refine exists_congr fun a => and_congr_right fun ha => ?_
      rcases directive_eq_ok ha with ⟨name, c, -, -, -, rfl⟩ | ⟨text, -, -, -, rfl⟩
      · rfl
      · rfl

end Node

namespace Grammar

/-! ### Grammars -/

theorem ofJson_eq_ok_iff {value : Json} {g : Grammar String} :
    ofJson value = .ok g ↔ readJson value = .ok g := by
  unfold ofJson
  cases readJson value <;> simp

theorem ofMain_eq_ok_iff {value : Json} {g : Grammar String} :
    ofMain value = .ok g ↔
      ∃ node, Node.ofJson value = .ok node ∧
        ⟨Table.empty.insert mainBranch node, mainBranch⟩ = g := by
  unfold ofMain
  rw [bind_eq_ok_iff]
  simp only [pure, Except.pure, Except.ok.injEq]

theorem branchOfJson_eq_ok_iff {f : String × Json} {e : String × Node String} :
    branchOfJson f = .ok e ↔ e.1 = f.1 ∧ Node.ofJson f.2 = .ok e.2 := by
  obtain ⟨name, node⟩ := e
  unfold branchOfJson
  cases Node.ofJson f.2 with
  | error m => simp
  | ok node' => simp [eq_comm]

theorem ofBranches_eq_ok {fields : List (String × Json)} {g : Grammar String}
    (h : ofBranches fields = .ok g) :
    g.entry = mainBranch ∧ (∀ name, (g.branch? name).isSome ↔ name ∈ fields.map Prod.fst) ∧
      ∀ name node, g.branch? name = some node →
        ∃ value, (name, value) ∈ fields ∧ Node.ofJson value = .ok node := by
  obtain ⟨es, hes, h⟩ := bind_eq_ok_iff.mp h
  obtain rfl := Except.ok.inj h
  refine ⟨rfl, ?_, ?_⟩
  · intro name
    have hnames : es.map Prod.fst = fields.map Prod.fst := by
      rw [← List.forall₂_eq_eq_eq, List.forall₂_map_left_iff, List.forall₂_map_right_iff]
      exact ((mapM_eq_ok_iff.mp hes).imp fun f e h => (branchOfJson_eq_ok_iff.mp h).1).flip
    rw [← hnames]
    exact Table.isSome_get?_ofList
  · intro name node hname
    obtain ⟨f, hf, h⟩ := exists_of_mem_mapM hes (Table.mem_of_get?_ofList hname)
    obtain ⟨hkey, hnode⟩ := branchOfJson_eq_ok_iff.mp h
    obtain rfl : name = f.1 := hkey
    exact ⟨f.2, hf, hnode⟩

end Grammar
end Typeahead
