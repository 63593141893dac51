import Typeahead.Proofs.Drafting

/-! # Nodes with one end

The main branch of a draft is a chain of literals, one inside the other, whose phrases all end in
the same place (`Node.EndsIn`).  Making a tail follow such a node does one of two things.  If the
node ends after literals, the tail is put there and no branch is made; if it ends in a reference,
that reference moves to one new branch, and a reference to this branch takes its place
(`Node.EndsIn.append_of_none`, `Node.EndsIn.append_of_some`). -/

namespace Typeahead

variable {σ : Type}

/-! ### The number of branches -/

namespace Table

variable {α : Type}

theorem length_place_of_lookup {key : String} (value : α) {l : List (String × α)}
    (h : l.lookup key = none) : (place key value l).length = l.length + 1 := by
  induction l with
  | nil => rfl
  | cons e l ih =>
      obtain ⟨k, v⟩ := e
      rw [lookup_cons_eq] at h
      split_ifs at h with hkey
      rw [place]
      split_ifs
      · rfl
      · rw [List.length_cons, List.length_cons, ih h]

theorem size_insert_of_get? {t : Table α} {key : String} (value : α) (h : t.get? key = none) :
    (t.insert key value).size = t.size + 1 :=
  length_place_of_lookup value h

end Table

namespace Stock

theorem size_add (label : String) (node : Node σ) (s : Stock σ) :
    (add label node s).2.branches.size = s.branches.size + 1 :=
  Table.size_insert_of_get? node (get?_fresh label node s)

/-! ### Making a tail follow a chain of literals -/

variable (tail : Node σ)

theorem appendEach_literals (texts : List String) (rest : Node σ) (s : Stock σ) :
    appendEach tail (Node.literals texts ++ rest) s =
      (Node.literals texts ++ (appendEach tail rest s).1, (appendEach tail rest s).2) := by
  induction texts with
  | nil => rfl
  | cons text texts ih =>
      show appendEach tail (.literal text :: (Node.literals texts ++ rest)) s = _
      rw [appendEach_literal, ih]
      rfl

theorem append_nested (texts : List String) (node : Node σ) (s : Stock σ) :
    append tail (Node.literals texts ++ [.nested node]) s =
      (Node.literals texts ++ [.nested (append tail node s).1], (append tail node s).2) := by
  have hn : ¬ Node.isTerminal (Node.literals texts ++ [.nested node]) := by
    simp [Node.isTerminal, Node.isLiteral]
  rw [append_of_not_terminal tail hn, appendEach_literals, appendEach_nested, appendEach_nil]

theorem append_reference (name : String) (next : Continuation σ) (s : Stock σ) :
    append tail (Node.reference name next) s =
      (Node.reference (add "then" (Node.reference name next) s).1 (.node tail),
        (add "then" (Node.reference name next) s).2) := by
  have hn : ¬ Node.isTerminal (Node.reference name next) := by
    simp [Node.reference, Node.isTerminal, Node.isLiteral]
  rw [append_of_not_terminal tail hn]
  unfold Node.reference
  rw [appendEach_moved tail rfl (by simp), appendEach_nil]

end Stock

namespace Node

open Stock (add append)

/-! ### Nodes that end in one place -/

/-- The phrases of the node all end in one place: after literals, or with the given reference. -/
inductive EndsIn : Node σ → Option (String × Continuation σ) → Prop
  | literals (texts : List String) : EndsIn (literals texts) none
  | reference (name : String) (next : Continuation σ) :
      EndsIn (reference name next) (some (name, next))
  | nested (texts : List String) {node : Node σ} {last : Option (String × Continuation σ)}
      (h : EndsIn node last) : EndsIn (literals texts ++ [.nested node]) last

variable {node tail : Node σ} {last : Option (String × Continuation σ)}

/-- Where a node ends after literals, the tail is put there. -/
theorem EndsIn.append_of_none (h : EndsIn node none) (htail : EndsIn tail last) (s : Stock σ) :
    (append tail node s).2 = s ∧ EndsIn (append tail node s).1 last := by
  generalize hnone : (none : Option (String × Continuation σ)) = start at h
  induction h with
  | literals texts =>
      rw [Stock.append_of_terminal tail (isTerminal_literals texts)]
      exact ⟨rfl, .nested texts htail⟩
  | reference name next => cases hnone
  | nested texts _ ih =>
      obtain ⟨hstock, hends⟩ := ih hnone
      rw [Stock.append_nested]
      exact ⟨hstock, .nested texts hends⟩

/-- Where a node ends in a reference, the reference moves to a new branch. -/
theorem EndsIn.append_of_some {name : String} {next : Continuation σ}
    (h : EndsIn node (some (name, next))) (tail : Node σ) (s : Stock σ) :
    let r := add "then" (.reference name next) s
    (append tail node s).2 = r.2 ∧ EndsIn (append tail node s).1 (some (r.1, .node tail)) := by
  intro r
  generalize hsome : some (name, next) = start at h
  induction h with
  | literals texts => cases hsome
  | reference name' next' =>
      obtain ⟨rfl, rfl⟩ := Prod.mk.inj (Option.some.inj hsome)
      rw [Stock.append_reference]
      exact ⟨rfl, .reference _ _⟩
  | nested texts _ ih =>
      obtain ⟨hstock, hends⟩ := ih hsome
      rw [Stock.append_nested]
      exact ⟨hstock, .nested texts hends⟩

end Node
end Typeahead
