import Mathlib.Data.List.Nodup
import Typeahead.Grammar.Draft
import Typeahead.Proofs.Resolution

/-! # Drafting multiplies phrases

A stock only ever grows by branches with new names (`Stock.get?_fresh`, `Stock.Grows`), so whatever a
node means in a stock it still means in every later one.  Making a tail follow a node multiplies the
phrases of the two (`Stock.means_append`), and hence pushing a part onto a draft makes the part
follow all phrases so far (`Draft.Phrased.push`). -/

namespace Typeahead

open Node (Means Follows Continues texts isTerminal isLiteral)
open Expansion (heads)

variable {σ : Type}

namespace Stock

/-! ### New names -/

theorem numbered_inj {label : String} {m n : ℕ} (h : numbered label m = numbered label n) :
    m = n := by
  have hrepr : Nat.repr m = Nat.repr n := by
    unfold numbered at h
    rwa [String.append_right_inj] at h
  have hdigits : Nat.toDigits 10 m = Nat.toDigits 10 n := by
    rw [← Nat.toList_repr, hrepr, Nat.toList_repr]
  rw [← Nat.ofDigitChars_ten_toDigits (n := m), hdigits, Nat.ofDigitChars_ten_toDigits]

theorem numbered_ne_main (label : String) (n : ℕ) : numbered label n ≠ Grammar.mainBranch := by
  intro h
  have hdash : '-' ∈ (numbered label n).toList := by simp [numbered]
  rw [h] at hdash
  revert hdash
  decide

theorem contains_of_freeNumber {branches : Table (Node σ)} {label : String} {tries n : ℕ}
    (h : branches.contains (numbered label (freeNumber branches label tries n)) = true) :
    ∀ i ≤ tries, branches.contains (numbered label (n + i)) = true := by
  induction tries generalizing n with
  | zero =>
      intro i hi
      obtain rfl : i = 0 := by omega
      exact h
  | succ tries ih =>
      unfold freeNumber at h
      split at h
      · rename_i hn
        intro i hi
        cases i with
        | zero => exact hn
        | succ i =>
            have := ih h i (by omega)
            rwa [show n + 1 + i = n + (i + 1) by omega] at this
      · rename_i hn
        exact absurd h hn

/-- The name found for a new branch is free: there are more numbers to try than branches. -/
theorem get?_freeNumber (branches : Table (Node σ)) (label : String) (n : ℕ) :
    branches.get? (numbered label (freeNumber branches label branches.size n)) = none := by
  by_contra hsome
  have htaken := contains_of_freeNumber (Option.isSome_iff_ne_none.mpr hsome)
  let taken := (List.range (branches.size + 1)).map fun i => numbered label (n + i)
  have hnodup : taken.Nodup := by
    refine List.Nodup.map ?_ List.nodup_range
    intro i j hij
    have := numbered_inj hij
    omega
  have hsub : taken ⊆ branches.keys := by
    intro name hname
    obtain ⟨i, hi, rfl⟩ := List.mem_map.mp hname
    have hi := List.mem_range.mp hi
    exact Table.mem_keys.mpr (htaken i (by omega))
  have hlen := hnodup.length_le_of_subset hsub
  simp only [taken, List.length_map, List.length_range, Table.keys] at hlen
  unfold Table.size at hlen
  omega

/-! ### Adding a branch -/

theorem get?_fresh (label : String) (node : Node σ) (s : Stock σ) :
    s.branches.get? (add label node s).1 = none :=
  get?_freeNumber s.branches label (s.last + 1)

theorem get?_add (label : String) (node : Node σ) (s : Stock σ) (name : String) :
    (add label node s).2.branches.get? name =
      if name = (add label node s).1 then some node else s.branches.get? name :=
  Table.get?_insert s.branches _ node name

theorem get?_added (label : String) (node : Node σ) (s : Stock σ) :
    (add label node s).2.branches.get? (add label node s).1 = some node := by
  rw [get?_add, if_pos rfl]

/-- The second stock is the first one after some branches were added. -/
inductive Grows (s : Stock σ) : Stock σ → Prop
  | refl : Grows s s
  | add {s' : Stock σ} (label : String) (node : Node σ) (h : Grows s s') :
      Grows s (add label node s').2

theorem Grows.trans {s s' s'' : Stock σ} (h : Grows s s') (h' : Grows s' s'') : Grows s s'' := by
  induction h' with
  | refl => exact h
  | add label node _ ih => exact .add label node ih

/-- Branches that are already there never change. -/
theorem Grows.kept {s s' : Stock σ} (h : Grows s s') : s.branches.Kept s'.branches := by
  induction h with
  | refl => exact fun _ _ hk => hk
  | @add s' label node _ ih =>
      intro name value hs
      have hs' := ih name value hs
      have hne : name ≠ (Stock.add label node s').1 := by
        rintro rfl
        rw [get?_fresh] at hs'
        cases hs'
      rw [get?_add, if_neg hne, hs']

theorem Grows.get?_main {s s' : Stock σ} (h : Grows s s')
    (hs : s.branches.get? Grammar.mainBranch = none) :
    s'.branches.get? Grammar.mainBranch = none := by
  induction h with
  | refl => exact hs
  | @add s' label node _ ih =>
      have hne : (Stock.add label node s').1 ≠ Grammar.mainBranch := numbered_ne_main _ _
      rw [get?_add, if_neg hne.symm, ih]

/-! ### Making a tail follow a node -/

variable (tail : Node σ)

theorem appendEach_nil (s : Stock σ) : appendEach tail [] s = ([], s) := by
  rw [appendEach]
  rfl

theorem appendEach_literal (text : String) (rest : Node σ) (s : Stock σ) :
    appendEach tail (.literal text :: rest) s =
      (.literal text :: (appendEach tail rest s).1, (appendEach tail rest s).2) := by
  rw [appendEach]
  rfl

theorem append_of_terminal {node : Node σ} (h : node.isTerminal) (s : Stock σ) :
    append tail node s = (node ++ [.nested tail], s) := by
  rw [append, if_pos h]
  rfl

theorem append_of_not_terminal {node : Node σ} (h : ¬ node.isTerminal) :
    append tail node = appendEach tail node := by
  rw [append, if_neg h]

theorem appendEach_nested (node rest : Node σ) (s : Stock σ) :
    appendEach tail (.nested node :: rest) s =
      (.nested (append tail node s).1 :: (appendEach tail rest (append tail node s).2).1,
        (appendEach tail rest (append tail node s).2).2) := by
  rw [appendEach, append]
  cases isTerminal node <;> rfl

theorem appendEach_moved {a : Alternative σ} (ha : isLiteral a = false)
    (hn : ∀ node, a ≠ .nested node) (rest : Node σ) (s : Stock σ) :
    appendEach tail (a :: rest) s =
      (.reference (add "then" [a] s).1 (.node tail) ::
          (appendEach tail rest (add "then" [a] s).2).1,
        (appendEach tail rest (add "then" [a] s).2).2) := by
  cases a with
  | literal text => simp [isLiteral] at ha
  | nested node => exact absurd rfl (hn node)
  | _ =>
      rw [appendEach]
      · rfl
      · simp
      · simp

/-- Induction over the alternatives of a node and of its nested nodes, where references and scripts
are one case: they are the alternatives that move. -/
@[elab_as_elim] theorem node_induction {P : Node σ → Prop} (nil : P [])
    (literal : ∀ text rest, P rest → P (.literal text :: rest))
    (nested : ∀ node rest, P node → P rest → P (.nested node :: rest))
    (moved : ∀ a rest, isLiteral a = false → (∀ node, a ≠ .nested node) → P rest → P (a :: rest)) :
    ∀ node : Node σ, P node
  | [] => nil
  | .literal text :: rest => literal text rest (node_induction nil literal nested moved rest)
  | .nested node :: rest =>
      nested node rest (node_induction nil literal nested moved node)
        (node_induction nil literal nested moved rest)
  | .reference _ _ :: rest =>
      moved _ rest rfl (by simp) (node_induction nil literal nested moved rest)
  | .script _ :: rest => moved _ rest rfl (by simp) (node_induction nil literal nested moved rest)

/-- What the rewriting of a node leaves alone: the branches that are there, the literals of the
node, and whether something follows them. -/
structure Rewritten (node : Node σ) (s : Stock σ) (r : Node σ × Stock σ) : Prop where
  grows : Grows s r.2
  texts : texts r.1 = texts node
  terminal : isTerminal r.1 = isTerminal node

theorem grows_append_of_appendEach {node : Node σ} {s : Stock σ}
    (h : Grows s (appendEach tail node s).2) : Grows s (append tail node s).2 := by
  by_cases hn : isTerminal node
  · rw [append_of_terminal tail hn]
    exact .refl
  · rw [append_of_not_terminal tail hn]
    exact h

theorem rewritten_appendEach (node : Node σ) (s : Stock σ) :
    Rewritten node s (appendEach tail node s) := by
  induction node using node_induction generalizing s with
  | nil =>
      rw [appendEach_nil]
      exact ⟨.refl, rfl, rfl⟩
  | literal text rest ih =>
      obtain ⟨hg, ht, hterm⟩ := ih s
      rw [appendEach_literal]
      exact ⟨hg, congrArg (text :: ·) ht, hterm⟩
  | nested node rest ihn ih =>
      have hnode := grows_append_of_appendEach tail (ihn s).grows
      obtain ⟨hg, ht, -⟩ := ih (append tail node s).2
      rw [appendEach_nested]
      exact ⟨hnode.trans hg, ht, rfl⟩
  | moved a rest ha hn ih =>
      obtain ⟨hg, ht, -⟩ := ih (add "then" [a] s).2
      rw [appendEach_moved tail ha hn]
      refine ⟨(Grows.refl.add "then" [a]).trans hg, ?_, ?_⟩
      · rw [Node.texts_cons ha]
        exact ht
      · have hnode : isTerminal (a :: rest) = false := by simp [isTerminal, ha]
        rw [hnode]
        simp [isTerminal, isLiteral]

theorem grows_append (node : Node σ) (s : Stock σ) : Grows s (append tail node s).2 :=
  grows_append_of_appendEach tail (rewritten_appendEach tail node s).grows

section meaning

variable {tail} {script : σ → List String → Prop} {s : Stock σ} {node : Node σ}
variable {us vs : List String}

/-- A node means the product if what follows its literals does. -/
theorem means_append_of_follows (ht : Means s.branches script tail vs)
    (hfollows : ¬ node.isTerminal → ∀ ws, Follows s.branches script node ws →
      Follows (appendEach tail node s).2.branches script (appendEach tail node s).1 (product ws vs))
    (hm : Means s.branches script node us) :
    Means (append tail node s).2.branches script (append tail node s).1 (product us vs) := by
  cases hm with
  | terminal hn =>
      rw [append_of_terminal tail hn]
      exact Node.means_terminal_append hn ht
  | @branching _ ws hn hf =>
      have hr := rewritten_appendEach tail node s
      rw [append_of_not_terminal tail hn, product_assoc, ← hr.texts]
      refine .branching ?_ (hfollows hn ws hf)
      rw [hr.terminal]
      exact hn

/-- What follows the literals of a node is multiplied by what the tail means. -/
theorem follows_appendEach {ws : List String} (ht : Means s.branches script tail vs)
    (hf : Follows s.branches script node ws) :
    Follows (appendEach tail node s).2.branches script (appendEach tail node s).1
      (product ws vs) := by
  induction node using node_induction generalizing s ws with
  | nil =>
      cases hf
      rw [appendEach_nil]
      exact .nil
  | literal text rest ih =>
      cases hf with
      | literal hr =>
          rw [appendEach_literal]
          exact .literal (ih ht hr)
  | nested node rest ihn ih =>
      cases hf with
      | nested hnode hr =>
          have hg := grows_append tail node s
          have hg' := (rewritten_appendEach tail rest (append tail node s).2).grows
          have hm := means_append_of_follows ht (fun _ ws hws => ihn ht hws) hnode
          rw [appendEach_nested, product_append_left]
          exact .nested (hm.kept hg'.kept) (ih (ht.kept hg.kept) (hr.kept hg.kept))
  | moved a rest ha hn ih =>
      obtain ⟨us, ws, rfl, hm, hr⟩ := hf.split ha
      have hg : Grows s (add "then" [a] s).2 := Grows.refl.add "then" [a]
      have hg' := (rewritten_appendEach tail rest (add "then" [a] s).2).grows
      have hkept := (hg.trans hg').kept
      have hname := hg'.kept _ _ (get?_added "then" [a] s)
      rw [appendEach_moved tail ha hn, product_append_left]
      exact .reference hname (hm.kept hkept) (.node (ht.kept hkept))
        (ih (ht.kept hg.kept) (hr.kept hg.kept))

/-- Making a tail follow a node multiplies what the two mean. -/
theorem means_append (ht : Means s.branches script tail vs)
    (hm : Means s.branches script node us) :
    Means (append tail node s).2.branches script (append tail node s).1 (product us vs) :=
  means_append_of_follows ht (fun _ _ hf => follows_appendEach ht hf) hm

end meaning

end Stock
end Typeahead
