import Typeahead.Proofs.Sampling

/-! # Expansions in sequence

`Expansion.append` copies its second expansion to the end of every path of the first, wherever that
path ends in the tree.  This is sequential composition: it is associative
(`Expansion.append_assoc`), it multiplies the phrases, and a sample of the whole is a sample of the
first expansion followed by a sample of the second (`Expansion.sample_append`).  Between the two one
word is taken, because the second expansion is the only branch at the end of the first, and a choice
of the only item takes one word too (`Draws.pick_one`). -/

namespace Typeahead

namespace Draws

/-! ### Taking words -/

theorem skip_skip (d : Draws) (m n : ℕ) : (d.skip m).skip n = d.skip (m + n) := by
  simp [skip, Nat.add_assoc]

theorem pick_one (d : Draws) : pick 1 d = (0, d.skip 1) := by
  have hw := draw_lt d
  have hmod : (draw d).1 * 1 % UInt32.size = (draw d).1 := by rw [Nat.mul_one, Nat.mod_eq_of_lt hw]
  have hlast : (UInt32.size - 1) % UInt32.size = UInt32.size - 1 := by decide
  have hcarry : ¬ ((draw d).1 * 1 % UInt32.size > (UInt32.size - 1) % UInt32.size) := by
    rw [hmod, hlast]
    omega
  have hscaled : (draw d).1 * 1 / UInt32.size = 0 := by rw [Nat.mul_one, Nat.div_eq_of_lt hw]
  simp only [pick, if_neg hcarry, hscaled]
  rfl

theorem exists_pick_skip (n : ℕ) (d : Draws) : ∃ k, (pick n d).2 = d.skip k := by
  simp only [pick]
  split
  · exact ⟨2, rfl⟩
  · exact ⟨1, rfl⟩

end Draws

namespace Expansion

variable (tail : Expansion)

/-! ### Associativity -/

@[simp] theorem length_appendAll (branches : List Expansion) :
    (appendAll branches tail).length = branches.length := by
  induction branches with
  | nil => rfl
  | cons branch rest ih => rw [appendAll, List.length_cons, List.length_cons, ih]

mutual

theorem append_assoc (last : Expansion) :
    ∀ e : Expansion, (e.append tail).append last = e.append (tail.append last)
  | ⟨literals, []⟩ => by
      rw [append_terminal, append_terminal, append_branching literals (List.cons_ne_nil _ _)]
      rfl
  | ⟨literals, branch :: rest⟩ => by
      have h : branch :: rest ≠ [] := List.cons_ne_nil _ _
      rw [append_branching literals h, append_branching literals h,
        append_branching literals (appendAll_ne_nil h tail), appendAll_assoc last (branch :: rest)]

theorem appendAll_assoc (last : Expansion) :
    ∀ branches : List Expansion,
      appendAll (appendAll branches tail) last = appendAll branches (tail.append last)
  | [] => rfl
  | branch :: rest => by
      rw [appendAll, appendAll, appendAll, append_assoc last branch, appendAll_assoc last rest]

end

/-! ### Sampling -/

theorem exists_sampleHead_skip (literals : List String) (d : Draws) :
    ∃ k, (sampleHead literals d).2 = d.skip k := by
  by_cases h : literals = []
  · subst h
    exact ⟨0, rfl⟩
  · rw [sampleHead_of_ne_nil h]
    exact Draws.exists_pick_skip literals.length d

mutual

/-- A sample takes words from the stream and leaves the words themselves alone. -/
theorem exists_sample_skip : ∀ (e : Expansion) (d : Draws), ∃ k, (e.sample d).2 = d.skip k
  | ⟨literals, []⟩, d => by
      rw [sample_terminal]
      exact exists_sampleHead_skip literals d
  | ⟨literals, branch :: rest⟩, d => by
      obtain ⟨k, hk⟩ := exists_sampleHead_skip literals d
      obtain ⟨m, hm⟩ := Draws.exists_pick_skip (branch :: rest).length (d.skip k)
      obtain ⟨n, hn⟩ := exists_sampleNth_skip (branch :: rest)
        (Draws.pick (branch :: rest).length (d.skip k)).1 ((d.skip k).skip m)
      refine ⟨k + (m + n), ?_⟩
      rw [sample_branching literals (List.cons_ne_nil _ _)]
      simp only [hk, hm]
      rw [hn, Draws.skip_skip, Draws.skip_skip]

theorem exists_sampleNth_skip : ∀ (branches : List Expansion) (i : ℕ) (d : Draws),
    ∃ k, (sampleNth branches i d).2 = d.skip k
  | [], _, _ => ⟨0, rfl⟩
  | branch :: _, 0, d => exists_sample_skip branch d
  | _ :: rest, i + 1, d => exists_sampleNth_skip rest i d

end

mutual

/-- A sample of two expansions in sequence is a sample of the first, one word that is taken for
nothing, and a sample of the second. -/
theorem sample_append : ∀ (e : Expansion) (d : Draws),
    (e.append tail).sample d =
      ((e.sample d).1 ++ (tail.sample ((e.sample d).2.skip 1)).1,
        (tail.sample ((e.sample d).2.skip 1)).2)
  | ⟨literals, []⟩, d => by
      -- The tail is the only branch here, so that its place is chosen from one item.
      rw [append_terminal, sample_branching literals (List.cons_ne_nil _ _), sample_terminal]
      simp only [List.length_singleton, Draws.pick_one]
      rw [sampleNth]
  | ⟨literals, branch :: rest⟩, d => by
      have h : branch :: rest ≠ [] := List.cons_ne_nil _ _
      have hplace := Draws.pick_lt (List.length_pos_of_ne_nil h) (sampleHead literals d).2
      rw [append_branching literals h, sample_branching literals (appendAll_ne_nil h tail),
        sample_branching literals h]
      simp only [length_appendAll, sampleNth_appendAll (branch :: rest) hplace,
        String.append_assoc]

theorem sampleNth_appendAll : ∀ (branches : List Expansion) {i : ℕ} (_ : i < branches.length)
    (d : Draws),
    sampleNth (appendAll branches tail) i d =
      ((sampleNth branches i d).1 ++ (tail.sample ((sampleNth branches i d).2.skip 1)).1,
        (tail.sample ((sampleNth branches i d).2.skip 1)).2)
  | [], _, h, _ => absurd h (Nat.not_lt_zero _)
  | branch :: _, 0, _, d => by
      rw [appendAll, sampleNth, sampleNth, sample_append branch d]
  | branch :: rest, i + 1, h, d => by
      rw [appendAll, sampleNth, sampleNth, sampleNth_appendAll rest (Nat.lt_of_succ_lt_succ h) d]

end

/-- **Appending is sequential composition.**  Of three expansions in sequence it makes no difference
which two are put together first.  The phrases of two expansions in sequence are the ordered product
of the phrases of both, also when only the first few of them are listed.  A sample of the two takes
the words that a sample of the first takes, one more, and the words that a sample of the second takes
from there, and it is the one sample behind the other. -/
theorem append_sequential (e t : Expansion) :
    (∀ u, (e.append t).append u = e.append (t.append u)) ∧
      (e.append t).words = product e.words t.words ∧
      (∀ limit, (e.append t).firstWords limit = (product e.words t.words).take limit) ∧
      ((e.append t).sample = do
        let first ← e.sample
        let _ ← Draws.draw
        let second ← t.sample
        return first ++ second) ∧
      ∀ d, ∃ m n, (e.sample d).2 = d.skip m ∧ (t.sample (d.skip (m + 1))).2 = d.skip (m + 1 + n) ∧
        (e.append t).sample d =
          ((e.sample d).1 ++ (t.sample (d.skip (m + 1))).1, d.skip (m + 1 + n)) := by
  refine ⟨fun u => append_assoc t u e, words_append t e, ?_, ?_, ?_⟩
  · intro limit
    rw [firstWords_eq_take, words_append]
  · funext d
    exact sample_append t e d
  · intro d
    obtain ⟨m, hm⟩ := exists_sample_skip e d
    obtain ⟨n, hn⟩ := exists_sample_skip t (d.skip (m + 1))
    rw [Draws.skip_skip] at hn
    refine ⟨m, n, hm, hn, ?_⟩
    rw [sample_append, hm, Draws.skip_skip, hn]

end Expansion
end Typeahead
