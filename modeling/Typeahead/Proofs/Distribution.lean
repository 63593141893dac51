import Typeahead.Proofs.Inventory
import Typeahead.Proofs.Locality

/-! # Distributing a tail over a node

`Stock.append` rewrites any node over any stock of branches, not only those that parts make.  A node
that has a meaning expands (`Grammar.expand_of_means`), and since the meaning of a rewritten node is
the product of the meanings of the node and the tail, so are the phrases it expands to
(`Stock.append_distributes`).  No name that was free before is caught by accident: whatever expands
in the stock before expands to the same afterwards (`Stock.Grows.expand_eq`).  New names are searched
number by number, and the search ends in every stock (`Stock.exists_firstFree`). -/

namespace Typeahead

variable {σ : Type}

namespace Stock

/-! ### Searching for a free name -/

/-- The names with the label and the numbers after `n` are tried one by one, and `m` is the first
number whose name is taken neither by a branch nor by the main branch. -/
inductive FirstFree (branches : Table (Node σ)) (label : String) : ℕ → ℕ → Prop
  | free {n : ℕ} (hmain : numbered label (n + 1) ≠ Grammar.mainBranch)
      (h : branches.contains (numbered label (n + 1)) = false) : FirstFree branches label n (n + 1)
  | taken {n m : ℕ} (h : numbered label (n + 1) = Grammar.mainBranch ∨
      branches.contains (numbered label (n + 1)) = true) (hr : FirstFree branches label (n + 1) m) :
      FirstFree branches label n m

theorem firstFree_freeNumber {branches : Table (Node σ)} {label : String} {tries n : ℕ}
    (h : branches.contains (numbered label (freeNumber branches label tries (n + 1))) = false) :
    FirstFree branches label n (freeNumber branches label tries (n + 1)) := by
  induction tries generalizing n with
  | zero => exact .free (numbered_ne_main label _) h
  | succ tries ih =>
      unfold freeNumber at h ⊢
      split at h
      · rename_i htaken
        rw [if_pos htaken]
        exact .taken (.inr htaken) (ih h)
      · rename_i hfree
        rw [if_neg hfree]
        exact .free (numbered_ne_main label _) h

/-- The search for a free name ends in every stock, and the branch is added under what it finds. -/
theorem exists_firstFree (label : String) (node : Node σ) (s : Stock σ) :
    ∃ n, FirstFree s.branches label s.last n ∧
      add label node s = (numbered label n, ⟨s.branches.insert (numbered label n) node, n⟩) := by
  refine ⟨_, firstFree_freeNumber ?_, rfl⟩
  have hfree := get?_freeNumber s.branches label (s.last + 1)
  unfold Table.contains
  rw [hfree]
  rfl

/-! ### Expanding nodes over a stock -/

/-- The expansion of a node whose references are to the branches of a stock. -/
def expand (s : Stock String) (node : Node String) : Except GrammarError Expansion :=
  let g : Grammar String := ⟨s.branches, Grammar.mainBranch⟩
  Node.expand (g.expandBranch Grammar.expandScript []) Grammar.expandScript node

variable {s s' : Stock String} {node tail : Node String} {e t : Expansion}

/-- What expands over a stock expands to the same over every later one: all names that it reaches
are branches, and branches never change. -/
theorem Grows.expand_eq (h : Grows s s') (he : s.expand node = .ok e) : s'.expand node = .ok e := by
  unfold expand at he ⊢
  rw [← he]
  symm
  apply Node.expand_congr
  intro name hname
  obtain ⟨e', hname⟩ := Node.ok_of_expand he _ hname
  have hexp := Grammar.expandable_of_expandBranch hname
  apply Grammar.expandBranch_congr
  intro m hm
  obtain ⟨node', hb⟩ := hexp.known m hm
  exact hb.trans (h.kept m node' hb).symm

/-- Over the grown stock the rewritten node has the phrases of the node, each followed by each
phrase of the tail. -/
theorem exists_expand_append (he : s.expand node = .ok e) (ht : s.expand tail = .ok t) :
    ∃ e', (append tail node s).2.expand (append tail node s).1 = .ok e' ∧
      e'.words = product e.words t.words := by
  have hnode := Grammar.means_of_expand he
  have htail := Grammar.means_of_expand ht
  exact Grammar.expand_of_means (means_append htail hnode)

/-- **Distribution.**  When a tail is made to follow a node, no branch of the stock changes, and
whatever expands over the stock expands to the same afterwards.  If the node and the tail both
expand, the rewritten node expands over the new stock, and its phrases are the ordered product of
the phrases of the two, also when only the first few of them are listed.  A name for a new branch is
found in every stock, however many names are taken. -/
theorem append_distributes (s : Stock String) (node tail : Node String) :
    s.branches.Kept (append tail node s).2.branches ∧
      (∀ other e, s.expand other = .ok e → (append tail node s).2.expand other = .ok e) ∧
      (∀ e t, s.expand node = .ok e → s.expand tail = .ok t →
        ∃ e', (append tail node s).2.expand (append tail node s).1 = .ok e' ∧
          e'.words = product e.words t.words ∧
          ∀ limit, e'.firstWords limit = (product e.words t.words).take limit) ∧
      ∀ label (new : Node String), ∃ n, FirstFree s.branches label s.last n ∧
        add label new s = (numbered label n, ⟨s.branches.insert (numbered label n) new, n⟩) := by
  have hgrows := grows_append tail node s
  refine ⟨hgrows.kept, fun other e he => hgrows.expand_eq he, ?_, ?_⟩
  · intro e t he ht
    obtain ⟨e', he', hwords⟩ := exists_expand_append he ht
    refine ⟨e', he', hwords, ?_⟩
    intro limit
    rw [Expansion.firstWords_eq_take, hwords]
  · intro label new
    exact exists_firstFree label new s

/-- A reference moves to `then-2`, because the tail itself refers to a branch `then-1`. -/
theorem append_distributes_greeting :
    let s : Stock String :=
      ⟨.ofList [("greet", [.literal "hi", .literal "hello"]), ("then-1", [.literal "!"])], 0⟩
    let node : Node String :=
      [.literal "oh, ", .nested [.literal "you"], .reference "greet" (.text " you")]
    let tail : Node String := [.reference "then-1" .nothing]
    (append tail node s).1 =
        [.literal "oh, ", .nested [.literal "you", .nested tail],
          .reference "then-2" (.node tail)] ∧
      s.expand node = .ok ⟨["oh, "], [.text "you", ⟨["hi", "hello"], [.text " you"]⟩]⟩ ∧
      s.expand tail = .ok ⟨[], [.text "!"]⟩ ∧
      ∃ e', (append tail node s).2.expand (append tail node s).1 = .ok e' ∧
        e'.words = ["oh, you!", "oh, hi you!", "oh, hello you!"] := by
  intro s node tail
  let g : Grammar String := ⟨s.branches, Grammar.mainBranch⟩
  have hgreet : g.branch? "greet" = some [.literal "hi", .literal "hello"] := by decide +kernel
  have hthen : g.branch? "then-1" = some [.literal "!"] := by decide +kernel
  have hnode : s.expand node = .ok ⟨["oh, "], [.text "you", ⟨["hi", "hello"], [.text " you"]⟩]⟩ := by
    show Node.expand (g.expandBranch _ []) _ _ = _
    simp only [node, Node.expand, Grammar.expandBranch_of_some List.not_mem_nil hgreet]
    rfl
  have htail : s.expand tail = .ok ⟨[], [.text "!"]⟩ := by
    show Node.expand (g.expandBranch _ []) _ _ = _
    rw [Node.expand, Grammar.expandBranch_of_some List.not_mem_nil hthen]
    rfl
  obtain ⟨e', he', hwords, -⟩ := (append_distributes s node tail).2.2.1 _ _ hnode htail
  refine ⟨?_, hnode, htail, e', he', ?_⟩
  · rw [append_of_not_terminal tail (by decide), appendEach_literal, appendEach_nested,
      append_of_terminal tail (by decide), appendEach_moved tail rfl (by simp), appendEach_nil]
    decide +kernel
  · rw [hwords]
    decide

end Stock
end Typeahead
