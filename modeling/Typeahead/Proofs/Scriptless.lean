import Typeahead.Proofs.Locality
import Typeahead.Proofs.Parts
import Typeahead.Proofs.Reading

/-! # Grammars without scripts

Parts make literals and references only, so the grammar of a script holds no script, whatever type
its scripts could have.  To say this, every script of a grammar is replaced by another one
(`Grammar.map`).  Drafting does not look at scripts, so it makes the replaced grammar out of the same
parts (`Draft.map_ofParts`); from a grammar in which no script can occur, all others are made by
replacing scripts that are not there.  Hence none of them has any (`Grammar.scriptless_ofScript`),
and the expansion of a script is that of its grammar, in which scripts would be expanded too
(`Grammar.expandScript_eq`). -/

namespace Typeahead

variable {σ τ : Type}

/-! ### Replacing values -/

namespace Table

variable {α β : Type}

/-- The table with the same keys whose values are replaced. -/
def map (f : α → β) (t : Table α) : Table β where
  entries := t.entries.map fun e => (e.1, f e.2)
  increasing := List.pairwise_map.mpr t.increasing

variable (f : α → β) (t : Table α)

theorem get?_map (key : String) : (t.map f).get? key = (t.get? key).map f :=
  lookup_map_value f t.entries key

theorem contains_map (key : String) : (t.map f).contains key = t.contains key := by
  unfold contains
  rw [get?_map, Option.isSome_map]

theorem size_map : (t.map f).size = t.size := List.length_map _

theorem map_insert (key : String) (value : α) :
    (t.insert key value).map f = (t.map f).insert key (f value) := by
  apply ext_get?
  intro k
  rw [get?_map, get?_insert, get?_insert, get?_map]
  split <;> rfl

end Table

/-! ### Replacing scripts -/

namespace Node

mutual

/-- An alternative with its scripts replaced. -/
def mapAlternative (f : σ → τ) : Alternative σ → Alternative τ
  | .literal text => .literal text
  | .nested node => .nested (map f node)
  | .reference name next => .reference name (mapNext f next)
  | .script text => .script (f text)

/-- A continuation with its scripts replaced. -/
def mapNext (f : σ → τ) : Continuation σ → Continuation τ
  | .nothing => .nothing
  | .text text => .text text
  | .node node => .node (map f node)

/-- A list of alternatives with its scripts replaced. -/
def map (f : σ → τ) : List (Alternative σ) → List (Alternative τ)
  | [] => []
  | a :: rest => mapAlternative f a :: map f rest

end

variable (f : σ → τ)

theorem map_append (m n : Node σ) : map f (m ++ n) = map f m ++ map f n := by
  induction m with
  | nil => rfl
  | cons a m ih => rw [List.cons_append, map, map, ih, List.cons_append]

theorem map_literals (texts : List String) : map f (literals texts) = literals texts := by
  induction texts with
  | nil => rfl
  | cons text texts ih => exact congrArg (.literal text :: ·) ih

theorem isLiteral_map (a : Alternative σ) : isLiteral (mapAlternative f a) = isLiteral a := by
  cases a <;> rfl

theorem isTerminal_map (node : Node σ) : isTerminal (map f node) = isTerminal node := by
  induction node with
  | nil => rfl
  | cons a rest ih =>
      unfold isTerminal at ih ⊢
      rw [map, List.all_cons, List.all_cons, ih, isLiteral_map]

mutual

theorem needs_map : ∀ node : Node σ, needs (map f node) = (needs node).map (Sum.map id f)
  | [] => rfl
  | .literal text :: rest => needs_map rest
  | .nested node :: rest => by
      rw [map, mapAlternative, needs, needs, needs_map node, needs_map rest, List.map_append]
  | .reference name next :: rest => by
      rw [map, mapAlternative, needs, needs, nextNeeds_map next, needs_map rest, List.map_cons,
        List.map_append]
      rfl
  | .script text :: rest => by
      rw [map, mapAlternative, needs, needs, needs_map rest, List.map_cons]
      rfl

theorem nextNeeds_map : ∀ next : Continuation σ,
    nextNeeds (mapNext f next) = (nextNeeds next).map (Sum.map id f)
  | .nothing => rfl
  | .text _ => rfl
  | .node node => needs_map node

end

section expand

variable (branch : String → Except GrammarError Expansion)
variable (script : τ → Except GrammarError Expansion)

mutual

/-- A node whose scripts are replaced expands as the node does with the scripts read that way. -/
theorem expand_map : ∀ node : Node σ,
    expand branch script (map f node) = expand branch (script ∘ f) node
  | [] => rfl
  | .literal text :: rest => by
      rw [map, mapAlternative, expand, expand, expand_map rest]
  | .nested node :: rest => by
      rw [map, mapAlternative, expand, expand, expand_map node, expand_map rest]
  | .reference name next :: rest => by
      rw [map, mapAlternative, expand, expand, expand_map rest]
      simp only [expandNext_map]
  | .script text :: rest => by
      rw [map, mapAlternative, expand, expand, expand_map rest]
      rfl

theorem expandNext_map : ∀ (e : Expansion) (next : Continuation σ),
    expandNext branch script e (mapNext f next) = expandNext branch (script ∘ f) e next
  | _, .nothing => rfl
  | _, .text _ => rfl
  | _, .node node => by rw [mapNext, expandNext, expandNext, expand_map node]

end

end expand

end Node

/-! ### Drafting does not look at scripts -/

namespace Stock

/-- The stock with the scripts of all branches replaced. -/
def map (f : σ → τ) (s : Stock σ) : Stock τ := ⟨s.branches.map (Node.map f), s.last⟩

variable (f : σ → τ)

theorem freeNumber_map (branches : Table (Node σ)) (label : String) (tries n : ℕ) :
    freeNumber (branches.map (Node.map f)) label tries n = freeNumber branches label tries n := by
  induction tries generalizing n with
  | zero => rfl
  | succ tries ih => rw [freeNumber, freeNumber, Table.contains_map, ih]

theorem add_map (label : String) (node : Node σ) (s : Stock σ) :
    add label (Node.map f node) (s.map f) = ((add label node s).1, (add label node s).2.map f) := by
  simp only [add, map, Table.size_map, freeNumber_map, Table.map_insert]

variable (tail : Node σ)

theorem append_map_of_appendEach {node : Node σ} {s : Stock σ}
    (h : appendEach (Node.map f tail) (Node.map f node) (s.map f) =
      (Node.map f (appendEach tail node s).1, (appendEach tail node s).2.map f)) :
    append (Node.map f tail) (Node.map f node) (s.map f) =
      (Node.map f (append tail node s).1, (append tail node s).2.map f) := by
  by_cases hn : node.isTerminal
  · rw [append_of_terminal tail hn, append_of_terminal _ (by rw [Node.isTerminal_map, hn]),
      Node.map_append]
    rfl
  · rw [append_of_not_terminal tail hn, append_of_not_terminal _ (by rwa [Node.isTerminal_map]), h]

theorem appendEach_map (node : Node σ) (s : Stock σ) :
    appendEach (Node.map f tail) (Node.map f node) (s.map f) =
      (Node.map f (appendEach tail node s).1, (appendEach tail node s).2.map f) := by
  induction node using node_induction generalizing s with
  | nil => rw [Node.map, appendEach_nil, appendEach_nil, Node.map]
  | literal text rest ih =>
      rw [Node.map, Node.mapAlternative, appendEach_literal, appendEach_literal, ih]
      rfl
  | nested node rest ihn ih =>
      have hnode := append_map_of_appendEach f tail (ihn s)
      rw [Node.map, Node.mapAlternative, appendEach_nested, appendEach_nested, hnode, ih]
      rfl
  | moved a rest ha hn ih =>
      have ha' : Node.isLiteral (Node.mapAlternative f a) = false := by rw [Node.isLiteral_map, ha]
      have hn' : ∀ node, Node.mapAlternative f a ≠ .nested node := by
        intro node h
        cases a with
        | nested node => exact hn node rfl
        | _ => simp [Node.mapAlternative] at h
      have hadd := add_map f "then" [a] s
      rw [Node.map, appendEach_moved _ ha' hn', appendEach_moved tail ha hn]
      rw [Node.map, Node.map] at hadd
      rw [hadd, ih]
      rfl

theorem append_map (node : Node σ) (s : Stock σ) :
    append (Node.map f tail) (Node.map f node) (s.map f) =
      (Node.map f (append tail node s).1, (append tail node s).2.map f) :=
  append_map_of_appendEach f tail (appendEach_map f tail node s)

end Stock

namespace Draft

/-- The draft with all scripts replaced. -/
def map (f : σ → τ) (d : Draft σ) : Draft τ := ⟨d.stock.map f, Node.map f d.main⟩

variable (f : σ → τ)

theorem append_map (d : Draft σ) (tail : Node σ) :
    (d.map f).append (Node.map f tail) = (d.append tail).map f := by
  show Draft.mk (Stock.append _ _ _).2 (Stock.append _ _ _).1 = _
  simp only [map, Stock.append_map]
  rfl

theorem push_map (d : Draft σ) (part : Part) : (d.map f).push part = (d.push part).map f := by
  cases part with
  | literal text =>
      have hmain : (d.map f).main = [] ↔ d.main = [] := by
        show Node.map f d.main = [] ↔ _
        cases d.main <;> simp [Node.map]
      by_cases h : d.main = []
      · rw [push, push, if_pos h, if_pos (hmain.mpr h)]
        rfl
      · rw [push, push, if_neg h, if_neg (hmain.not.mpr h)]
        exact append_map f d [.literal text]
  | group alternatives =>
      have hadd := Stock.add_map f "group" (Node.literals alternatives) d.stock
      rw [Node.map_literals] at hadd
      let r := Stock.add "group" (Node.literals alternatives) d.stock
      let r' := Stock.add "group" (Node.literals alternatives) (d.stock.map f)
      show Draft.append ⟨r'.2, Node.map f d.main⟩ (Node.reference r'.1 .nothing) = _
      rw [show r' = (r.1, r.2.map f) from hadd]
      exact append_map f ⟨r.2, d.main⟩ (Node.reference r.1 .nothing)

theorem foldl_push_map (d : Draft σ) (parts : List Part) :
    parts.foldl push (d.map f) = (parts.foldl push d).map f := by
  induction parts generalizing d with
  | nil => rfl
  | cons part parts ih => rw [List.foldl_cons, List.foldl_cons, push_map, ih]

/-- The same parts make the same draft, whatever scripts it could hold. -/
theorem map_ofParts (parts : List Part) :
    (ofParts parts : Draft σ).map f = (ofParts parts : Draft τ) :=
  (foldl_push_map f empty parts).symm

end Draft

namespace Grammar

/-- The grammar with all scripts replaced. -/
def map (f : σ → τ) (g : Grammar σ) : Grammar τ := ⟨g.branches.map (Node.map f), g.entry⟩

section map

variable (f : σ → τ)

theorem branch?_map (g : Grammar σ) (name : String) :
    (g.map f).branch? name = (g.branch? name).map (Node.map f) :=
  Table.get?_map (Node.map f) g.branches name

theorem map_ofParts (parts : List Part) :
    (ofParts parts : Grammar σ).map f = (ofParts parts : Grammar τ) := by
  have hdraft : (Draft.ofParts parts : Draft τ) = (Draft.ofParts parts : Draft σ).map f :=
    (Draft.map_ofParts f parts).symm
  unfold ofParts
  rw [hdraft]
  simp only [map, Draft.grammar, Draft.map, Stock.map, Table.map_insert]

theorem map_ofScript (text : String) :
    (map f <$> (ofScript text : Except GrammarError (Grammar σ))) = ofScript text := by
  unfold ofScript
  cases Script.parts text with
  | ok parts => exact congrArg Except.ok (map_ofParts f parts)
  | error fault => rfl

theorem expandBranch_map (script : τ → Except GrammarError Expansion) (g : Grammar σ)
    (path : List String) (name : String) :
    expandBranch script (g.map f) path name = expandBranch (script ∘ f) g path name := by
  induction path, name using expandBranch.induct g with
  | case1 path name hmem => rw [expandBranch_of_mem hmem, expandBranch_of_mem hmem]
  | case2 path name hmem hb =>
      have hb' : (g.map f).branch? name = none := by rw [branch?_map, hb, Option.map_none]
      rw [expandBranch_of_none hmem hb, expandBranch_of_none hmem hb']
  | case3 path name hmem node hb ih =>
      have hb' : (g.map f).branch? name = some (Node.map f node) := by
        rw [branch?_map, hb, Option.map_some]
      rw [expandBranch_of_some hmem hb, expandBranch_of_some hmem hb', Node.expand_map]
      exact Node.expand_congr node fun m _ => ih m

end map

/-! ### Grammars of scripts -/

/-- No script occurs in any branch. -/
def Scriptless (g : Grammar σ) : Prop :=
  ∀ name node text, g.branch? name = some node → .inr text ∉ Node.needs node

theorem scriptless_map (f : Empty → σ) (g : Grammar Empty) : (g.map f).Scriptless := by
  intro name node text hb hneeds
  rw [branch?_map] at hb
  obtain ⟨node', -, rfl⟩ := Option.map_eq_some_iff.mp hb
  rw [Node.needs_map] at hneeds
  obtain ⟨x, -, hx⟩ := List.mem_map.mp hneeds
  cases x with
  | inl m => cases hx
  | inr script => exact script.elim

/-- The grammar of a script holds no script. -/
theorem scriptless_ofScript {text : String} {g : Grammar σ} (h : ofScript text = .ok g) :
    g.Scriptless := by
  rw [← map_ofScript (Empty.elim : Empty → σ)] at h
  obtain ⟨g', -, rfl⟩ := map_eq_ok_iff.mp h
  exact scriptless_map Empty.elim g'

/-- A script is expanded as every grammar is: the rule for scripts inside it is the same. -/
theorem expandScript_eq (text : String) :
    expandScript text = (do
      let g : Grammar String ← ofScript text
      g.expandBranch expandScript [] mainBranch) := by
  conv_lhs => unfold expandScript
  rw [← map_ofScript (Empty.elim : Empty → String)]
  cases (ofScript text : Except GrammarError (Grammar Empty)) with
  | error error => rfl
  | ok g =>
      have hscript : expandScript ∘ Empty.elim = Empty.elim := by
        funext script
        exact script.elim
      show _ = (g.map Empty.elim).expandBranch expandScript [] mainBranch
      rw [expandBranch_map, hscript]
      rfl

end Grammar
end Typeahead
