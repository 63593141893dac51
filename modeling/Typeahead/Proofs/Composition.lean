import Typeahead.Dictionary.Suggest
import Typeahead.Proofs.Spelling

/-! # Slugs of joined texts

Where characters stand between two texts that part pieces, the pieces of the whole are those of the
two texts (`Slug.pieces_append`), and so are the pieces of words that are joined and of a text with
its completion.  The slug of the whole is therefore put together from the slugs of the parts
(`Slug.slug_of_pieces_flatMap`); a part without a slug leaves no separator behind. -/

namespace Typeahead

/-- Slugs with a separator between them; one that is empty is left out, with its separator. -/
def joinSlugs (separator : String) (slugs : List String) : String :=
  separator.intercalate (slugs.filter (· ≠ ""))

namespace Slug

/-! ### Pieces of joined texts -/

theorem ne_empty_of_mem_pieces {text piece : String} (h : piece ∈ pieces text) : piece ≠ "" := by
  rw [pieces_eq] at h
  obtain ⟨cs, hcs, rfl⟩ := List.mem_map.mp h
  simpa using (isPiece_of_mem_spelled hcs).1

@[simp] theorem pieces_empty : pieces "" = [] := by decide +kernel

theorem pieces_append {gap : String} (hne : gap ≠ "") (h : ∀ c ∈ gap.toList, Parts c)
    (a b : String) : pieces (a ++ gap ++ b) = pieces a ++ pieces b := by
  have hgap : gap.toList ≠ [] := by simpa using hne
  rw [pieces_eq, String.toList_append, String.toList_append, spelled_append_parts hgap h,
    List.map_append]
  rfl

theorem pieces_append_space (a b : String) : pieces (a ++ " " ++ b) = pieces a ++ pieces b :=
  pieces_append (by decide) (by simp [Parts, isBlank, blankRanges]) a b

theorem pieces_joinWords : ∀ ws : List String, pieces (joinWords ws) = ws.flatMap pieces
  | [] => by simp [joinWords]
  | [w] => by simp [joinWords]
  | v :: w :: ws => by
      have ih := pieces_joinWords (w :: ws)
      rw [joinWords, String.intercalate_cons_cons, ← joinWords, pieces_append_space, ih]
      rfl

/-- A blank at the end of a text parts the completion from it, as the space does that is put in
otherwise. -/
theorem pieces_withCompletion (text completion : String) :
    pieces (withCompletion text completion) = pieces text ++ pieces completion := by
  unfold withCompletion
  split
  · rename_i hlast
    have hempty : text = "" := by simpa using hlast
    rw [hempty, pieces_empty, List.nil_append]
  · rename_i c hlast
    obtain ⟨front, hfront⟩ := List.getLast?_eq_some_iff.mp hlast
    split_ifs with hc
    · have hspelled : spelled (front ++ [c]) = spelled front := by
        rw [spelled_append_cons (.inl hc)]
        exact List.append_nil _
      rw [pieces_eq, pieces_eq, pieces_eq, String.toList_append, hfront, List.append_assoc,
        List.singleton_append, spelled_append_cons (.inl hc), hspelled, List.map_append]
    · exact pieces_append_space text completion

end Slug

/-! ### Joining slugs -/

theorem intercalate_eq_empty_iff (separator : String) {ps : List String} (h : ∀ p ∈ ps, p ≠ "") :
    separator.intercalate ps = "" ↔ ps = [] := by
  cases ps with
  | nil => simp
  | cons p ps =>
      have hp : p ∈ p :: ps := List.mem_cons_self
      simp [intercalate_ne_empty hp (h p hp)]

theorem joinSlugs_eq_empty_iff (separator : String) (slugs : List String) :
    joinSlugs separator slugs = "" ↔ ∀ s ∈ slugs, s = "" := by
  have hne : ∀ s ∈ slugs.filter (· ≠ ""), s ≠ "" := by
    intro s hs
    simpa using (List.mem_filter.mp hs).2
  rw [joinSlugs, intercalate_eq_empty_iff separator hne, List.filter_eq_nil_iff]
  simp

@[simp] theorem joinSlugs_singleton (separator s : String) : joinSlugs separator [s] = s := by
  by_cases hs : s = ""
  · simp [joinSlugs, hs]
  · simp [joinSlugs, hs]

@[simp] theorem joinSlugs_empty_cons (separator : String) (slugs : List String) :
    joinSlugs separator ("" :: slugs) = joinSlugs separator slugs := by
  simp [joinSlugs]

@[simp] theorem joinSlugs_empty_right (separator s : String) :
    joinSlugs separator [s, ""] = s := by
  by_cases hs : s = ""
  · simp [joinSlugs, hs]
  · simp [joinSlugs, hs]

theorem joinSlugs_pair (separator : String) {s t : String} (hs : s ≠ "") (ht : t ≠ "") :
    joinSlugs separator [s, t] = s ++ separator ++ t := by
  simp [joinSlugs, hs, ht]

/-- Several slugs can be joined one at a time. -/
theorem joinSlugs_cons (separator s : String) (slugs : List String) :
    joinSlugs separator (s :: slugs) = joinSlugs separator [s, joinSlugs separator slugs] := by
  by_cases hs : s = ""
  · rw [hs, joinSlugs_empty_cons, joinSlugs_empty_cons, joinSlugs_singleton]
  have hfilter : (s :: slugs).filter (· ≠ "") = s :: slugs.filter (· ≠ "") :=
    List.filter_cons_of_pos (by simpa using hs)
  by_cases hrest : joinSlugs separator slugs = ""
  · have hnone : slugs.filter (· ≠ "") = [] := by
      simpa [List.filter_eq_nil_iff] using (joinSlugs_eq_empty_iff separator slugs).mp hrest
    rw [hrest, joinSlugs_empty_right, joinSlugs, hfilter, hnone, String.intercalate_singleton]
  · have hsome : slugs.filter (· ≠ "") ≠ [] := by
      intro hnone
      rw [joinSlugs, hnone, String.intercalate_nil] at hrest
      exact hrest rfl
    rw [joinSlugs_pair separator hs hrest, joinSlugs, hfilter,
      String.intercalate_cons_of_ne_nil hsome, ← joinSlugs]

namespace Slug

theorem slug_eq_empty_iff (separator text : String) :
    slug separator text = "" ↔ pieces text = [] :=
  intercalate_eq_empty_iff separator fun _ hp => ne_empty_of_mem_pieces hp

theorem slug_of_pieces_append (separator : String) {text a b : String}
    (h : pieces text = pieces a ++ pieces b) :
    slug separator text = joinSlugs separator [slug separator a, slug separator b] := by
  by_cases ha : pieces a = []
  · rw [ha, List.nil_append] at h
    rw [(slug_eq_empty_iff separator a).mpr ha, joinSlugs_empty_cons, joinSlugs_singleton, slug, h,
      ← slug]
  by_cases hb : pieces b = []
  · rw [hb, List.append_nil] at h
    rw [(slug_eq_empty_iff separator b).mpr hb, joinSlugs_empty_right, slug, h, ← slug]
  · have hsa := mt (slug_eq_empty_iff separator a).mp ha
    have hsb := mt (slug_eq_empty_iff separator b).mp hb
    rw [joinSlugs_pair separator hsa hsb, slug, h, String.intercalate_append_of_ne_nil ha hb,
      ← slug, ← slug]

theorem slug_of_pieces_flatMap (separator : String) {text : String} :
    ∀ {texts : List String}, pieces text = texts.flatMap pieces →
      slug separator text = joinSlugs separator (texts.map (slug separator))
  | [], h => by
      rw [slug, h]
      rfl
  | first :: rest, h => by
      have hrest := slug_of_pieces_flatMap separator (pieces_joinWords rest)
      rw [List.flatMap_cons, ← pieces_joinWords] at h
      rw [slug_of_pieces_append separator h, hrest, ← joinSlugs_cons, List.map_cons]

end Slug

theorem slug_append {gap : String} (hne : gap ≠ "") (h : ∀ c ∈ gap.toList, Slug.Parts c)
    (separator a b : String) :
    slug separator (a ++ gap ++ b) = joinSlugs separator [slug separator a, slug separator b] :=
  Slug.slug_of_pieces_append separator (Slug.pieces_append hne h a b)

theorem Search.key_eq_joinSlugs (ws : List String) :
    Search.key ws = joinSlugs "_" (ws.map (slug "_")) :=
  Slug.slug_of_pieces_flatMap "_" (Slug.pieces_joinWords ws)

/-- **Slugs of joined texts.**  The slug of two texts with blanks between them consists of their two
slugs with the separator between them; a text without a slug is left out together with the
separator.  So the key of some words consists of those of their slugs that are not empty, and the
slug of a text with a completion consists of the slugs of both. -/
theorem slug_composes :
    (∀ separator a blanks b : String, blanks ≠ "" → (∀ c ∈ blanks.toList, isBlank c = true) →
        slug separator (a ++ blanks ++ b) =
          joinSlugs separator [slug separator a, slug separator b]) ∧
      (∀ ws, Search.key ws = joinSlugs "_" (ws.map (slug "_"))) ∧
      ∀ separator text completion, slug separator (withCompletion text completion) =
        joinSlugs separator [slug separator text, slug separator completion] := by
  refine ⟨?_, Search.key_eq_joinSlugs, ?_⟩
  · intro separator a blanks b hne hblank
    exact slug_append hne (fun c hc => .inl (hblank c hc)) separator a b
  · intro separator text completion
    exact Slug.slug_of_pieces_append separator (Slug.pieces_withCompletion text completion)

/-- The first text ends with a dash and the second begins with one; of three words the one in the
middle has no slug; the text ends with a tab before its completion. -/
theorem slug_composes_like :
    "\t " ≠ "" ∧ (∀ c ∈ "\t ".toList, isBlank c = true) ∧
      slug "_" ("So I-" ++ "\t " ++ "- like") = "so_i_like" ∧
      Search.key ["I", "--", "like"] = "i_like" ∧
      slug "-" (withCompletion "I like\t" "2 cats") = "i-like-2-cats" := by
  have hblank : ∀ c ∈ "\t ".toList, isBlank c = true := by simp [isBlank, blankRanges]
  obtain ⟨happend, hkey, hcompletion⟩ := slug_composes
  refine ⟨by decide, hblank, ?_, ?_, ?_⟩
  · rw [happend _ _ _ _ (by decide) hblank]
    decide +kernel
  · rw [hkey]
    decide +kernel
  · rw [hcompletion]
    decide +kernel

end Typeahead
