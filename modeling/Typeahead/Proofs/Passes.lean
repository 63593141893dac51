import Typeahead.Proofs.Spelling

/-! # Slugs made in passes

A slug can be made by going over the text a few times.  The text is trimmed and lowered; each
character is transcribed, by its row if it has one, where a run of blanks gives a single dash
(`transcribe`); dashes are dropped at the front, after another dash, and at the end (`tidy`); at last
the separator is put in place of each dash that is left (`replaceEach`).  The result is the slug (`slug_eq_slugByPasses`), for tidying
joins the runs between the dashes by single ones (`tidy_eq_intercalate`), and neither trimming nor
the run of blanks shows in these runs. -/

namespace Typeahead
namespace Slug

/-- The spelling of a character of a lowered text that is no blank: by its row, if it has one, and
else by itself. -/
def transcribed (c : Char) : List Char :=
  match fold? c with
  | some spelling => spelling
  | none =>
    if c = '&' then ['-', 'a', 'n', 'd', '-']
    else if c.isAlphanum || c = '-' then [c]
    else []

/-- The characters of a lowered text one after another in their spelling; a blank that stands after a
blank gives nothing. -/
def transcribe (afterBlank : Bool) : List Char → List Char
  | [] => []
  | c :: cs =>
    if isBlank c then (if afterBlank then [] else ['-']) ++ transcribe true cs
    else transcribed c ++ transcribe false cs

/-- One more character behind those that are kept; a dash is dropped at the front and after a
dash. -/
def keep (kept : List Char) (c : Char) : List Char :=
  if c = '-' ∧ (kept = [] ∨ kept.getLast? = some '-') then kept else kept ++ [c]

/-- The characters without dashes at the two ends and after another dash. -/
def tidy (cs : List Char) : List Char := (cs.foldl keep []).rdropWhile (· == '-')

/-- The slug of a text, made in passes. -/
def slugByPasses (separator text : String) : String :=
  let cs := (trim text).toList.flatMap lowered
  .ofList (replaceEach '-' separator.toList (tidy (transcribe false cs)))

/-! ### Transcribing -/

theorem transcribed_eq {c : Char} (hblank : ¬ isBlank c = true) :
    transcribed c = spellLowered c := by
  unfold transcribed
  by_cases hfirst : c.isAlphanum = true ∨ c = '-'
  · have hand : c ≠ '&' := by
      rintro rfl
      revert hfirst
      decide
    rw [fold?_eq_none hfirst]
    simp only [if_neg hand]
    rw [if_pos (by simpa using hfirst)]
    rcases hfirst with halphanum | rfl
    · rw [spellLowered_of_isAlphanum halphanum]
    · rw [(spellLowered_eq_dash_iff '-').mpr (by decide)]
  · obtain ⟨halphanum, hdash⟩ := not_or.mp hfirst
    rw [spellLowered_of_not (not_or.mpr ⟨hblank, hdash⟩) halphanum]
    cases fold? c with
    | some spelling => rfl
    | none => simp [halphanum, hdash]

/-- A list behind which a dash adds nothing to the runs. -/
def Open (xs : List Char) : Prop := xs = [] ∨ xs.getLast? = some '-'

theorem runsBetween_append_of_open {xs : List Char} (h : Open xs) (ys : List Char) :
    runsBetween (· == '-') (xs ++ ys) =
      runsBetween (· == '-') xs ++ runsBetween (· == '-') ys := by
  rcases h with rfl | h
  · rfl
  · obtain ⟨front, rfl⟩ := List.getLast?_eq_some_iff.mp h
    rw [List.append_assoc, List.singleton_append, runsBetween_append_cons (by decide),
      runsBetween_append_cons (by decide), runsBetween_nil, List.append_nil]

/-- A run of blanks gives the same runs as its first blank. -/
theorem runsBetween_transcribe (afterBlank : Bool) (front cs : List Char)
    (h : afterBlank = true → Open front) :
    runsBetween (· == '-') (front ++ transcribe afterBlank cs) =
      runsBetween (· == '-') (front ++ cs.flatMap spellLowered) := by
  induction cs generalizing afterBlank front with
  | nil => rfl
  | cons c cs ih =>
      rw [transcribe, List.flatMap_cons]
      by_cases hblank : isBlank c = true
      · rw [if_pos hblank, (spellLowered_eq_dash_iff c).mpr (.inl hblank)]
        cases afterBlank with
        | false =>
            have hopen : Open (front ++ ['-']) := .inr (by simp)
            have hrest := ih true (front ++ ['-']) fun _ => hopen
            simpa using hrest
        | true =>
            have hrest := ih true front h
            rw [if_pos rfl, List.nil_append, hrest, runsBetween_append_of_open (h rfl),
              List.singleton_append, runsBetween_append_cons (by decide)]
      · rw [if_neg hblank, transcribed_eq hblank, ← List.append_assoc, ← List.append_assoc]
        exact ih false (front ++ spellLowered c) (by simp)

theorem spelled_trim (text : String) : spelled (trim text).toList = spelled text.toList := by
  obtain ⟨before, after, hbefore, hafter, htext⟩ := exists_blanks_trim text
  rw [htext, List.append_assoc, spelled_parts_append fun c hc => .inl (hbefore c hc)]
  cases after with
  | nil => rw [List.append_nil]
  | cons b rest =>
      obtain ⟨hb, hrest⟩ := List.forall_mem_cons.mp hafter
      have hnone : spelled rest = [] := by
        have happend := spelled_parts_append (fun c hc => .inl (hrest c hc)) []
        rwa [List.append_nil] at happend
      rw [spelled_append_cons (.inl hb), hnone, List.append_nil]

/-! ### Tidying -/

theorem keep_dash_of_open {kept : List Char} (h : Open kept) : keep kept '-' = kept :=
  if_pos ⟨rfl, h⟩

theorem foldl_keep_of_not_mem {cs : List Char} (h : '-' ∉ cs) (kept : List Char) :
    cs.foldl keep kept = kept ++ cs := by
  induction cs generalizing kept with
  | nil => simp
  | cons c cs ih =>
      rw [List.mem_cons, not_or] at h
      rw [List.foldl_cons, keep, if_neg fun hc => h.1 hc.1.symm, ih h.2, List.append_assoc]
      rfl

theorem exists_last_of_not_mem {xs : List Char} (hne : xs ≠ []) (h : '-' ∉ xs)
    (kept : List Char) : ∃ front c, kept ++ xs = front ++ [c] ∧ c ≠ '-' := by
  refine ⟨kept ++ xs.dropLast, xs.getLast hne, ?_, ?_⟩
  · rw [List.append_assoc, List.dropLast_append_getLast hne]
  · exact ne_of_mem_of_not_mem (List.getLast_mem hne) h

theorem rdropWhile_of_not_mem {xs : List Char} (hne : xs ≠ []) (h : '-' ∉ xs)
    (kept : List Char) : (kept ++ xs).rdropWhile (· == '-') = kept ++ xs := by
  obtain ⟨front, c, hfront, hc⟩ := exists_last_of_not_mem hne h kept
  rw [hfront, List.rdropWhile_concat_neg _ _ _ (by simpa using hc)]

theorem keep_dash_of_not_mem {xs : List Char} (hne : xs ≠ []) (h : '-' ∉ xs)
    (kept : List Char) : keep (kept ++ xs) '-' = kept ++ xs ++ ['-'] := by
  obtain ⟨front, c, hfront, hc⟩ := exists_last_of_not_mem hne h kept
  refine if_neg ?_
  rw [hfront]
  simpa using hc

/-- Behind characters after which no dash is kept, the runs of a list are kept with single dashes
between them. -/
theorem rdropWhile_foldl_keep {kept : List Char} (h : Open kept) (cs : List Char) :
    (cs.foldl keep kept).rdropWhile (· == '-') =
      if runsBetween (· == '-') cs = [] then kept.rdropWhile (· == '-')
      else kept ++ ['-'].intercalate (runsBetween (· == '-') cs) := by
  induction cs using mark_induction '-' generalizing kept with
  | run cs hcs =>
      by_cases hne : cs = []
      · rw [hne]
        rfl
      · rw [runsBetween_of_not_mem hne hcs, if_neg (by simp), foldl_keep_of_not_mem hcs,
          rdropWhile_of_not_mem hne hcs, List.intercalate_singleton]
  | parted xs ys hxs ih =>
      rw [runsBetween_append_cons (by decide), List.foldl_append, List.foldl_cons,
        foldl_keep_of_not_mem hxs]
      by_cases hne : xs = []
      · -- A dash behind another, or at the front.
        rw [hne, List.append_nil, keep_dash_of_open h, ih h]
        rfl
      · rw [keep_dash_of_not_mem hne hxs, ih (.inr (by simp)), runsBetween_of_not_mem hne hxs,
          List.singleton_append, if_neg (List.cons_ne_nil _ _)]
        split_ifs with hnone
        · rw [List.rdropWhile_concat_pos _ _ _ (by decide), rdropWhile_of_not_mem hne hxs, hnone,
            List.intercalate_singleton]
        · rw [List.intercalate_cons_of_ne_nil hnone]
          simp

/-- Tidying joins the runs between dashes by single ones. -/
theorem tidy_eq_intercalate (cs : List Char) :
    tidy cs = ['-'].intercalate (runsBetween (· == '-') cs) := by
  rw [tidy, rdropWhile_foldl_keep (.inl rfl)]
  split_ifs with hnone
  · rw [hnone]
    rfl
  · rfl

/-! ### All passes -/

/-- Going over a text in passes makes its slug. -/
theorem slug_eq_slugByPasses (separator text : String) :
    slug separator text = slugByPasses separator text := by
  have hruns : runsBetween (· == '-') (transcribe false ((trim text).toList.flatMap lowered)) =
      spelled text.toList := by
    have htranscribe := runsBetween_transcribe false [] ((trim text).toList.flatMap lowered) (by simp)
    rw [List.nil_append, List.nil_append, List.flatMap_assoc] at htranscribe
    rw [htranscribe, ← spelled_trim]
    rfl
  have hpieces : ∀ p ∈ spelled text.toList, '-' ∉ p :=
    fun p hp => (isPiece_of_mem_spelled hp).not_mem
  apply String.toList_inj.mp
  rw [slugByPasses, String.toList_ofList, tidy_eq_intercalate, hruns,
    replaceEach_intercalate _ hpieces, toList_slug]

end Slug
end Typeahead
