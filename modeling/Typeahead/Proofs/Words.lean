import Mathlib.Data.List.TakeWhile
import Typeahead.Proofs.Pieces
import Typeahead.Text.Blank

/-! # Words and joined words

The words of a text are its runs between blanks (`words_eq_runs`), and so they follow the equations
of `runsBetween`.  What `words` finds is never empty and has no blank in it (`IsWord`).  Words that
are joined are found again (`words_joinWords`), and the end of a text never has more words than the
text (`length_words_le_of_suffix`). -/

namespace Typeahead

/-- No character of a list is blank. -/
def Solid (cs : List Char) : Prop := ∀ c ∈ cs, isBlank c = false

/-- A text that is not empty and has no blank in it. -/
def IsWord (w : String) : Prop := w ≠ "" ∧ Solid w.toList

theorem words_eq_runs (text : String) :
    words text = (runsBetween isBlank text.toList).map String.ofList := rfl

theorem mem_runs {cs run : List Char} (h : run ∈ runsBetween isBlank cs) :
    run ≠ [] ∧ Solid run := by
  obtain ⟨hne, hmem⟩ := mem_runsBetween h
  exact ⟨hne, fun c hc => (hmem c hc).2⟩

/-! ### Words -/

theorem isWord_of_mem_words {text w : String} (h : w ∈ words text) : IsWord w := by
  rw [words_eq_runs] at h
  obtain ⟨run, hrun, rfl⟩ := List.mem_map.mp h
  obtain ⟨hne, hsolid⟩ := mem_runs hrun
  refine ⟨?_, ?_⟩
  · simpa using hne
  · rwa [String.toList_ofList]

theorem length_words_le_of_suffix {s t : String} (h : s.toList <:+ t.toList) :
    (words s).length ≤ (words t).length := by
  obtain ⟨xs, hxs⟩ := h
  rw [words_eq_runs, words_eq_runs, List.length_map, List.length_map, ← hxs]
  exact length_runsBetween_le_append xs s.toList

theorem toList_joinWords_cons_cons (v w : String) (ws : List String) :
    (joinWords (v :: w :: ws)).toList = v.toList ++ ' ' :: (joinWords (w :: ws)).toList := by
  unfold joinWords
  simp [String.toList_intercalate, List.intercalate]

theorem runs_of_isWord {w : String} (h : IsWord w) : runsBetween isBlank w.toList = [w.toList] :=
  runsBetween_of_forall (by simpa using h.1) h.2

theorem runs_joinWords : ∀ {ws : List String}, (∀ w ∈ ws, IsWord w) →
    runsBetween isBlank (joinWords ws).toList = ws.map String.toList
  | [], _ => by simp [joinWords]
  | [w], h => by
      have hone : joinWords [w] = w := by simp [joinWords]
      rw [hone, runs_of_isWord (h w List.mem_cons_self)]
      rfl
  | v :: w :: ws, h => by
      have ih := runs_joinWords fun u hu => h u (List.mem_cons_of_mem v hu)
      rw [toList_joinWords_cons_cons, runsBetween_append_cons (by decide),
        runs_of_isWord (h v List.mem_cons_self), ih]
      rfl

/-- Words that are joined are found again. -/
theorem words_joinWords {ws : List String} (h : ∀ w ∈ ws, IsWord w) :
    words (joinWords ws) = ws := by
  rw [words_eq_runs, runs_joinWords h, List.map_map]
  simp

/-! ### Trimmed texts -/

theorem exists_blanks_trim (text : String) :
    ∃ before after, (∀ c ∈ before, isBlank c = true) ∧ (∀ c ∈ after, isBlank c = true) ∧
      text.toList = before ++ (trim text).toList ++ after := by
  let rest := text.toList.dropWhile isBlank
  refine ⟨text.toList.takeWhile isBlank, (rest.reverse.takeWhile isBlank).reverse, ?_, ?_, ?_⟩
  · intro c hc
    exact List.mem_takeWhile_imp hc
  · intro c hc
    exact List.mem_takeWhile_imp (List.mem_reverse.mp hc)
  · -- Blanks are taken off the front first, and off the back of what is left.
    have hrest : rest = (trim text).toList ++ (rest.reverse.takeWhile isBlank).reverse := by
      rw [trim, String.toList_ofList, ← List.reverse_append, List.takeWhile_append_dropWhile,
        List.reverse_reverse]
    rw [List.append_assoc, ← hrest, List.takeWhile_append_dropWhile]

/-- A property that blanks have holds throughout a text if it does so between its outer blanks. -/
theorem forall_mem_trim_iff {P : Char → Prop} (hblank : ∀ c, isBlank c = true → P c)
    (text : String) : (∀ c ∈ (trim text).toList, P c) ↔ ∀ c ∈ text.toList, P c := by
  obtain ⟨before, after, hbefore, hafter, htext⟩ := exists_blanks_trim text
  rw [htext]
  constructor
  · intro h c hc
    rcases List.mem_append.mp hc with hc | hc
    · rcases List.mem_append.mp hc with hc | hc
      · exact hblank c (hbefore c hc)
      · exact h c hc
    · exact hblank c (hafter c hc)
  · intro h c hc
    exact h c (List.mem_append_left _ (List.mem_append_right _ hc))

theorem trim_eq_empty_iff (text : String) :
    trim text = "" ↔ ∀ c ∈ text.toList, isBlank c = true := by
  constructor
  · intro h
    rw [← forall_mem_trim_iff (fun _ hc => hc), h]
    simp
  · intro h
    rw [trim, List.dropWhile_eq_nil_iff.mpr h]
    rfl

end Typeahead
