import Mathlib.Data.List.DropRight

/-! # Pieces between separators

A list that is cut at each separator has pieces without a separator.  What holds of all items of
the pieces holds of all items of the list but for the separators (`forall_mem_splitOn_iff`), and the
last piece is the longest end of the list that has no separator (`getLast?_splitOn`).

The pieces that are not empty are the longest runs between separators (`runsBetween`).  Two
equations determine them: characters without a separator form one run (`runsBetween_of_forall`), and
a separator parts the runs before it from those behind it (`runsBetween_append_cons`). -/

namespace Typeahead

theorem forall_mem_splitOn_iff {P : Char → Prop} (sep : Char) (cs : List Char) :
    (∀ piece ∈ cs.splitOn sep, ∀ c ∈ piece, P c) ↔ ∀ c ∈ cs, c = sep ∨ P c := by
  induction cs with
  | nil => simp [List.splitOn_eq_singleton]
  | cons a cs ih =>
      rw [List.splitOn_cons_eq_if_modifyHead, List.forall_mem_cons, ← ih]
      by_cases ha : a = sep
      · simp [ha]
      · obtain ⟨piece, pieces, hsplit⟩ := List.exists_cons_of_ne_nil (List.splitOn_ne_nil sep cs)
        simp [ha, hsplit, and_assoc]

/-- The last piece is what follows the last separator. -/
theorem getLast?_splitOn (sep : Char) (cs : List Char) :
    (cs.splitOn sep).getLast? = some (cs.rtakeWhile (· ≠ sep)) := by
  have hcs := List.rdropWhile_append_rtakeWhile (p := (· ≠ sep)) (l := cs)
  have hlast := List.rdropWhile_last_not (· ≠ sep) cs
  have htail : sep ∉ cs.rtakeWhile (· ≠ sep) := by
    intro hmem
    simpa using List.mem_rtakeWhile_imp hmem
  generalize cs.rdropWhile (· ≠ sep) = lead at hcs hlast
  generalize cs.rtakeWhile (· ≠ sep) = tail at hcs htail ⊢
  rw [← hcs]
  cases lead using List.reverseRecOn with
  | nil => rw [List.nil_append, List.splitOn_eq_singleton htail, List.getLast?_singleton]
  | append_singleton lead c =>
      obtain rfl : c = sep := by simpa using hlast (by simp)
      rw [← List.append_cons, List.splitOn, List.splitOnP_append_cons lead tail (by simp),
        ← List.splitOn_eq_splitOnP, ← List.splitOn_eq_splitOnP, List.splitOn_eq_singleton htail,
        List.getLast?_concat]

theorem exists_splitOn_append {sep : Char} {ending : List Char} (h : sep ∉ ending)
    (cs : List Char) : ∃ above last, (cs ++ ending).splitOn sep = above ++ [last ++ ending] := by
  have hending : ∀ c ∈ ending.reverse, decide (c ≠ sep) = true := by
    intro c hc
    rw [decide_eq_true_eq]
    rintro rfl
    exact h (List.mem_reverse.mp hc)
  have hlast : (cs ++ ending).rtakeWhile (· ≠ sep) = cs.rtakeWhile (· ≠ sep) ++ ending := by
    unfold List.rtakeWhile
    rw [List.reverse_append, List.takeWhile_append_of_pos hending, List.reverse_append,
      List.reverse_reverse]
  have hsplit := getLast?_splitOn sep (cs ++ ending)
  rw [hlast] at hsplit
  exact ⟨_, _, (List.dropLast_append_getLast? _ hsplit).symm⟩

/-! ### Joining -/

theorem intercalate_ne_nil {p : List Char} {ps : List (List Char)} (hmem : p ∈ ps) (hp : p ≠ [])
    (gap : List Char) : gap.intercalate ps ≠ [] := by
  induction ps with
  | nil => cases hmem
  | cons q ps ih =>
      by_cases hps : ps = []
      · rw [hps, List.mem_singleton] at hmem
        rwa [hps, List.intercalate_singleton, ← hmem]
      · rw [List.intercalate_cons_of_ne_nil hps]
        rcases List.mem_cons.mp hmem with rfl | hmem
        · simp [hp]
        · exact List.append_ne_nil_of_right_ne_nil _ (ih hmem)

theorem intercalate_concat {ps : List (List Char)} (hps : ps ≠ []) (gap p : List Char) :
    gap.intercalate (ps ++ [p]) = gap.intercalate ps ++ gap ++ p := by
  induction ps with
  | nil => exact absurd rfl hps
  | cons q ps ih =>
      rcases eq_or_ne ps [] with rfl | hps
      · simp [List.intercalate_cons_cons]
      · rw [List.cons_append, List.intercalate_cons_of_ne_nil (by simp),
          List.intercalate_cons_of_ne_nil hps, ih hps]
        simp

theorem intercalate_ne_empty {p : String} {ps : List String} (hmem : p ∈ ps) (hp : p ≠ "")
    (separator : String) : separator.intercalate ps ≠ "" := by
  have hne : p.toList ≠ [] := by simpa using hp
  have hlist := intercalate_ne_nil (List.mem_map_of_mem hmem) hne separator.toList
  intro hempty
  rw [← String.toList_intercalate, hempty] at hlist
  exact hlist rfl

/-! ### Replacing a separator -/

/-- A list with another one in place of each occurrence of a character. -/
def replaceEach (mark : Char) (other cs : List Char) : List Char :=
  cs.flatMap fun c => if c = mark then other else [c]

section replaceEach

variable {mark : Char} (other : List Char)

theorem replaceEach_append (xs ys : List Char) :
    replaceEach mark other (xs ++ ys) = replaceEach mark other xs ++ replaceEach mark other ys :=
  List.flatMap_append

theorem replaceEach_singleton : replaceEach mark other [mark] = other := by
  simp [replaceEach]

theorem replaceEach_of_not_mem {cs : List Char} (h : mark ∉ cs) :
    replaceEach mark other cs = cs := by
  induction cs with
  | nil => rfl
  | cons c cs ih =>
      rw [List.mem_cons, not_or] at h
      rw [replaceEach, List.flatMap_cons, if_neg (Ne.symm h.1)]
      exact congrArg (c :: ·) (ih h.2)

theorem replaceEach_intercalate : ∀ {ps : List (List Char)}, (∀ p ∈ ps, mark ∉ p) →
    replaceEach mark other ([mark].intercalate ps) = other.intercalate ps
  | [], _ => rfl
  | [p], h => by
      rw [List.intercalate_singleton, List.intercalate_singleton,
        replaceEach_of_not_mem other (h p List.mem_cons_self)]
  | p :: q :: ps, h => by
      have ih := replaceEach_intercalate fun r hr => h r (List.mem_cons_of_mem p hr)
      rw [List.intercalate_cons_cons, List.intercalate_cons_cons, replaceEach_append,
        replaceEach_append, replaceEach_singleton, ih,
        replaceEach_of_not_mem other (h p List.mem_cons_self)]

end replaceEach

/-! ### Runs -/

/-- The longest runs of characters that are no separators. -/
def runsBetween (p : Char → Bool) (cs : List Char) : List (List Char) :=
  (cs.splitOnP p).filter (· ≠ [])

section runsBetween

variable {p : Char → Bool}

@[simp] theorem runsBetween_nil : runsBetween p [] = [] := rfl

theorem runsBetween_of_forall {cs : List Char} (hne : cs ≠ []) (h : ∀ c ∈ cs, p c = false) :
    runsBetween p cs = [cs] := by
  unfold runsBetween
  rw [List.splitOnP_eq_singleton h]
  simp [hne]

theorem runsBetween_append_cons {c : Char} (hc : p c = true) (xs ys : List Char) :
    runsBetween p (xs ++ c :: ys) = runsBetween p xs ++ runsBetween p ys := by
  unfold runsBetween
  rw [List.splitOnP_append_cons xs ys hc, List.filter_append]

theorem runsBetween_cons {c : Char} (hc : p c = true) (cs : List Char) :
    runsBetween p (c :: cs) = runsBetween p cs := runsBetween_append_cons hc [] cs

/-- Induction on the separators of a list: each step goes back to what stands behind the first
one. -/
@[elab_as_elim] theorem separator_induction {p : Char → Bool} {P : List Char → Prop}
    (solid : ∀ cs, (∀ c ∈ cs, p c = false) → P cs)
    (parted : ∀ xs c ys, (∀ x ∈ xs, p x = false) → p c = true → P ys → P (xs ++ c :: ys))
    (cs : List Char) : P cs := by
  -- The characters before the first separator are gathered in `xs`.
  have hgather : ∀ cs xs : List Char, (∀ x ∈ xs, p x = false) → P (xs ++ cs) := by
    intro cs
    induction cs with
    | nil =>
        intro xs hxs
        rw [List.append_nil]
        exact solid xs hxs
    | cons c cs ih =>
        intro xs hxs
        by_cases hc : p c = true
        · exact parted xs c cs hxs hc (ih [] (by simp))
        · rw [List.append_cons]
          apply ih
          intro a ha
          rcases List.mem_append.mp ha with ha | ha
          · exact hxs a ha
          · obtain rfl := List.mem_singleton.mp ha
            simpa using hc
  exact hgather cs [] (by simp)

/-! ### Runs between single characters -/

theorem runsBetween_of_not_mem {mark : Char} {cs : List Char} (hne : cs ≠ []) (h : mark ∉ cs) :
    runsBetween (· == mark) cs = [cs] :=
  runsBetween_of_forall hne fun c hc => by simpa using ne_of_mem_of_not_mem hc h

@[elab_as_elim] theorem mark_induction (mark : Char) {P : List Char → Prop}
    (run : ∀ cs, mark ∉ cs → P cs)
    (parted : ∀ xs ys, mark ∉ xs → P ys → P (xs ++ mark :: ys)) (cs : List Char) : P cs := by
  have hnot : ∀ {xs : List Char}, (∀ x ∈ xs, (x == mark) = false) → mark ∉ xs := by
    intro xs hxs hmark
    simpa using hxs mark hmark
  refine separator_induction (p := (· == mark)) (fun cs hcs => run cs (hnot hcs)) ?_ cs
  intro xs c ys hxs hc ih
  obtain rfl : c = mark := by simpa using hc
  exact parted xs ys (hnot hxs) ih

/-! ### What runs hold -/

theorem length_runsBetween_le_one {cs : List Char} (h : ∀ c ∈ cs, p c = false) :
    (runsBetween p cs).length ≤ 1 := by
  by_cases hne : cs = []
  · simp [hne]
  · simp [runsBetween_of_forall hne h]

theorem length_runsBetween_le_cons (c : Char) (cs : List Char) :
    (runsBetween p cs).length ≤ (runsBetween p (c :: cs)).length := by
  by_cases hc : p c = true
  · simp [runsBetween_cons hc]
  · have hc : p c = false := by simpa using hc
    have hone : ∀ xs : List Char, (∀ x ∈ xs, p x = false) →
        (runsBetween p xs).length ≤ (runsBetween p (c :: xs)).length := by
      intro xs hxs
      rw [runsBetween_of_forall (List.cons_ne_nil c xs) (List.forall_mem_cons.mpr ⟨hc, hxs⟩)]
      exact length_runsBetween_le_one hxs
    induction cs using separator_induction (p := p) with
    | solid cs hcs => exact hone cs hcs
    | parted xs b ys hxs hb _ =>
        have hle := hone xs hxs
        rw [← List.cons_append, runsBetween_append_cons hb, runsBetween_append_cons hb]
        simp only [List.length_append]
        omega

theorem length_runsBetween_le_append (xs ys : List Char) :
    (runsBetween p ys).length ≤ (runsBetween p (xs ++ ys)).length := by
  induction xs with
  | nil => simp
  | cons x xs ih => exact Nat.le_trans ih (length_runsBetween_le_cons x (xs ++ ys))

theorem flatten_runsBetween (cs : List Char) :
    (runsBetween p cs).flatten = cs.filter (!p ·) := by
  have hsolid : ∀ xs : List Char, (∀ x ∈ xs, p x = false) →
      (runsBetween p xs).flatten = xs.filter (!p ·) := by
    intro xs hxs
    rw [List.filter_eq_self.mpr (by simpa using hxs)]
    by_cases hne : xs = []
    · simp [hne]
    · simp [runsBetween_of_forall hne hxs]
  induction cs using separator_induction (p := p) with
  | solid cs hcs => exact hsolid cs hcs
  | parted xs b ys hxs hb ih =>
      rw [runsBetween_append_cons hb, List.flatten_append, hsolid xs hxs, ih, List.filter_append,
        List.filter_cons_of_neg (by simp [hb])]

theorem mem_runsBetween {cs run : List Char} (h : run ∈ runsBetween p cs) :
    run ≠ [] ∧ ∀ c ∈ run, c ∈ cs ∧ p c = false := by
  induction cs using separator_induction (p := p) with
  | solid cs hcs =>
      by_cases hne : cs = []
      · simp [hne] at h
      · rw [runsBetween_of_forall hne hcs] at h
        obtain rfl := List.mem_singleton.mp h
        exact ⟨hne, fun c hc => ⟨hc, hcs c hc⟩⟩
  | parted xs b ys hxs hb ih =>
      rw [runsBetween_append_cons hb] at h
      rcases List.mem_append.mp h with h | h
      · by_cases hne : xs = []
        · simp [hne] at h
        · rw [runsBetween_of_forall hne hxs] at h
          obtain rfl := List.mem_singleton.mp h
          exact ⟨hne, fun c hc => ⟨List.mem_append_left _ hc, hxs c hc⟩⟩
      · obtain ⟨hne, hmem⟩ := ih h
        refine ⟨hne, fun c hc => ⟨?_, (hmem c hc).2⟩⟩
        exact List.mem_append_right _ (List.mem_cons_of_mem _ (hmem c hc).1)

end runsBetween

end Typeahead
