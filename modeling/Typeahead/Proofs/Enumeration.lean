import Typeahead.Proofs.Parts

/-! # Enumerating a branch

The phrases of a branch are what its node means (`Grammar.wordsFrom_iff_means`), and they can be
listed exactly if the branch is expandable; otherwise the error blames something that the branch
reaches (`Grammar.wordsFrom_iff_expandable`).  A limit keeps the phrases that come first and
changes nothing else (`Grammar.firstWords_eq_take_words`). -/

namespace Typeahead
namespace Grammar

open Node (Means)

/-! ### Scripts -/

theorem expandScript_words_iff {text : String} {ws : List String} :
    (∃ e, expandScript text = .ok e ∧ e.words = ws) ↔ scriptWords text = .ok ws := by
  cases h : Script.parts text with
  | ok parts =>
      obtain ⟨e, he, hwords⟩ := expandScript_of_ok h
      rw [scriptWords_of_ok h, he, ← hwords]
      simp
  | error fault =>
      rw [scriptWords_of_error h, expandScript_of_error h]
      simp

theorem exists_expandScript_iff {text : String} :
    (∃ e, expandScript text = .ok e) ↔ ∃ parts, Script.parts text = .ok parts := by
  cases h : Script.parts text with
  | ok parts =>
      obtain ⟨e, he, -⟩ := expandScript_of_ok h
      simp [he]
  | error fault => simp [expandScript_of_error h]

/-- A script that cannot be split into parts fails with its fault. -/
def ScriptFails (text : String) (error : GrammarError) : Prop :=
  ∃ fault, Script.parts text = .error fault ∧ error = .script fault

theorem expandScript_eq_error_iff {text : String} {error : GrammarError} :
    expandScript text = .error error ↔ ScriptFails text error := by
  unfold ScriptFails
  cases h : Script.parts text with
  | ok parts =>
      obtain ⟨e, he, -⟩ := expandScript_of_ok h
      simp [he]
  | error fault => simp [expandScript_of_error h, eq_comm]

/-! ### What a branch means -/

/-- **Compositional meaning.**  The phrases of a branch are what the node of the branch means, where
a script means the phrases of its own grammar. -/
theorem wordsFrom_iff_means (g : Grammar String) (name : String) (ws : List String) :
    g.wordsFrom name = .ok ws ↔
      ∃ node, g.branch? name = some node ∧
        Means g.branches (fun text vs => scriptWords text = .ok vs) node ws := by
  rw [wordsFrom_eq_ok_iff]
  constructor
  · rintro ⟨e, he, rfl⟩
    obtain ⟨node, hb, hm⟩ := means_of_expandBranch he
    exact ⟨node, hb, hm.mono (fun _ _ hk => hk) fun _ _ hs => expandScript_words_iff.mp hs⟩
  · rintro ⟨node, hb, hm⟩
    exact expandBranch_of_means hb
      (hm.mono (fun _ _ hk => hk) fun _ _ hs => expandScript_words_iff.mpr hs)

theorem words_of_literals {g : Grammar String} {texts : List String}
    (h : g.branch? g.entry = some (Node.literals texts)) : g.words = .ok (Expansion.heads texts) :=
  wordsFrom_eq_ok_iff.mpr (expandBranch_of_means h (Node.means_literals texts))

/-! ### Success and failure -/

theorem blames_of_wordsFrom {g : Grammar String} {name : String} {error : GrammarError}
    (h : g.wordsFrom name = .error error) : g.Blames ScriptFails name error := by
  have hblames := blames_of_expandBranch (wordsFrom_eq_error_iff.mp h)
    (fun m hm => absurd hm List.not_mem_nil)
  cases hblames with
  | unknown hr hm => exact .unknown hr hm
  | cyclic hr hm => exact .cyclic hr hm
  | script hr hb ht hf => exact .script hr hb ht (expandScript_eq_error_iff.mp hf)

/-- **When expansion fails.**  The phrases of a branch can be listed exactly if every name that it
reaches is a branch, none of these names reaches itself, and every script in them can be split into
parts.  Otherwise the error names something reached that breaks one of these three conditions, and
it is never an error of the shape of a grammar. -/
theorem wordsFrom_iff_expandable (g : Grammar String) (name : String) :
    ((∃ ws, g.wordsFrom name = .ok ws) ↔
        g.Expandable (fun text => ∃ parts, Script.parts text = .ok parts) name) ∧
      ∀ error, g.wordsFrom name = .error error →
        g.Blames ScriptFails name error ∧ ∀ m, error ≠ .misfit m := by
  refine ⟨⟨?_, ?_⟩, ?_⟩
  · rintro ⟨ws, h⟩
    obtain ⟨e, he, -⟩ := wordsFrom_eq_ok_iff.mp h
    have hexp := expandable_of_expandBranch he
    exact ⟨hexp.known, hexp.acyclic, fun m node text hr hb ht =>
      exists_expandScript_iff.mp (hexp.scripts m node text hr hb ht)⟩
  · intro hexp
    cases h : g.wordsFrom name with
    | ok ws => exact ⟨ws, rfl⟩
    | error error =>
        refine absurd hexp ((blames_of_wordsFrom h).not_expandable ?_)
        rintro text _ ⟨fault, hfault, -⟩ ⟨parts, hparts⟩
        rw [hfault] at hparts
        cases hparts
  · intro error h
    refine ⟨blames_of_wordsFrom h, ?_⟩
    rintro m rfl
    cases blames_of_wordsFrom h with
    | script _ _ _ hf =>
        obtain ⟨fault, -, hmisfit⟩ := hf
        cases hmisfit

/-! ### The first phrases -/

section firstWords

variable {g : Grammar String}

theorem firstWords_of_ok {ws : List String} (h : g.words = .ok ws) (limit : ℕ) :
    g.firstWords limit = .ok (ws.take limit) := by
  obtain ⟨e, he, rfl⟩ := wordsFrom_eq_ok_iff.mp h
  unfold firstWords
  rw [he, ← Expansion.firstWords_eq_take]
  rfl

theorem firstWords_of_error {error : GrammarError} (h : g.words = .error error) (limit : ℕ) :
    g.firstWords limit = .error error := by
  unfold firstWords
  rw [wordsFrom_eq_error_iff.mp h]
  rfl

end firstWords

/-- **A limit only shortens the list.**  A listing with a limit gives the phrases of the grammar
that come first, as many as the limit allows and no fewer, or the error for which they cannot be
listed.  What is listed first of a listing that has a limit itself is what is listed under the
smaller of the two. -/
theorem firstWords_eq_take_words (g : Grammar String) (limit : ℕ) :
    g.firstWords limit = List.take limit <$> g.words ∧
      ∀ cap, List.take limit <$> g.firstWords cap = g.firstWords (min limit cap) := by
  cases h : g.words with
  | ok ws =>
      refine ⟨firstWords_of_ok h limit, ?_⟩
      intro cap
      rw [firstWords_of_ok h, firstWords_of_ok h, ← List.take_take]
      rfl
  | error error =>
      refine ⟨firstWords_of_error h limit, ?_⟩
      intro cap
      rw [firstWords_of_error h, firstWords_of_error h]
      rfl

end Grammar
end Typeahead
