import Mathlib.Data.List.Chain
import Typeahead.Proofs.Passes

/-! # The normal form of slugs

A slug with dashes is in normal form: letters and digits in runs that single dashes part
(`Slug.Normal`).  The texts in normal form are exactly those that are their own slug
(`slug_eq_self_iff`).  Another separator can be put in place of the dashes and read back, if it
parts pieces: the slug of a slug is then the slug of the text (`slug_slug`). -/

namespace Typeahead
namespace Slug

/-- Letters and digits in runs that single dashes part: there is no other character, no dash at the
two ends, and no dash after a dash. -/
structure Normal (cs : List Char) : Prop where
  spelled : ∀ c ∈ cs, Alphanumeric c ∨ c = '-'
  head : cs.head? ≠ some '-'
  last : cs.getLast? ≠ some '-'
  single : cs.IsChain fun a b => a = '-' → b ≠ '-'

theorem normal_nil : Normal [] where
  spelled := by simp
  head := by simp
  last := by simp
  single := .nil

theorem IsPiece.normal {piece : List Char} (h : IsPiece piece) : Normal piece where
  spelled c hc := .inl (h.2 c hc)
  head hhead := h.not_mem (List.mem_of_mem_head? hhead)
  last hlast := h.not_mem (List.mem_of_getLast? hlast)
  single := (List.pairwise_of_forall_mem_list fun _ ha _ _ hdash =>
    absurd hdash (ne_of_mem_of_not_mem ha h.not_mem)).isChain

/-- A piece and a dash can be put before what is in normal form. -/
theorem IsPiece.normal_append {piece rest : List Char} (h : IsPiece piece) (hne : rest ≠ [])
    (hrest : Normal rest) : Normal (piece ++ '-' :: rest) where
  spelled c hc := by
    rcases List.mem_append.mp hc with hc | hc
    · exact .inl (h.2 c hc)
    · rcases List.mem_cons.mp hc with hdash | hc
      · exact .inr hdash
      · exact hrest.spelled c hc
  head := by
    rw [List.head?_append_of_ne_nil _ h.1]
    exact h.normal.head
  last := by
    rw [List.append_cons, List.getLast?_append_of_ne_nil _ hne]
    exact hrest.last
  single := by
    rw [List.isChain_append, List.isChain_cons]
    refine ⟨h.normal.single, ⟨fun b hb _ => ?_, hrest.single⟩, fun a ha _ _ hdash => ?_⟩
    · rintro rfl
      exact hrest.head hb
    · exact absurd hdash (ne_of_mem_of_not_mem (List.mem_of_getLast? ha) h.not_mem)

theorem normal_intercalate : ∀ {ps : List (List Char)}, (∀ p ∈ ps, IsPiece p) →
    Normal (['-'].intercalate ps)
  | [], _ => normal_nil
  | [p], h => by
      rw [List.intercalate_singleton]
      exact (h p List.mem_cons_self).normal
  | p :: q :: ps, h => by
      have hrest : ∀ r ∈ q :: ps, IsPiece r := fun r hr => h r (List.mem_cons_of_mem p hr)
      have hq : q ≠ [] := (hrest q List.mem_cons_self).1
      rw [List.intercalate_cons_cons, List.append_assoc, List.singleton_append]
      exact (h p List.mem_cons_self).normal_append (intercalate_ne_nil List.mem_cons_self hq _)
        (normal_intercalate hrest)

/-- What stands before a dash and what stands behind it is not empty, and what stands behind it is
in normal form again. -/
theorem Normal.of_append_dash {xs ys : List Char} (h : Normal (xs ++ '-' :: ys)) :
    xs ≠ [] ∧ ys ≠ [] ∧ Normal ys := by
  have hx : xs ≠ [] := by
    rintro rfl
    exact h.head rfl
  have hy : ys ≠ [] := by
    rintro rfl
    exact h.last (by simp)
  have hchain := (List.isChain_append.mp h.single).2.1
  rw [List.isChain_cons] at hchain
  have hlast := h.last
  rw [List.append_cons, List.getLast?_append_of_ne_nil _ hy] at hlast
  refine ⟨hx, hy, ?_, fun hhead => hchain.1 '-' hhead rfl rfl, hlast, hchain.2⟩
  intro c hc
  exact h.spelled c (List.mem_append_right _ (List.mem_cons_of_mem _ hc))

theorem Normal.intercalate_runsBetween {cs : List Char} (h : Normal cs) :
    ['-'].intercalate (runsBetween (· == '-') cs) = cs := by
  induction cs using mark_induction '-' with
  | run cs hcs =>
      by_cases hne : cs = []
      · rw [hne]
        rfl
      · rw [runsBetween_of_not_mem hne hcs, List.intercalate_singleton]
  | parted xs ys hxs ih =>
      obtain ⟨hx, hy, hys⟩ := h.of_append_dash
      have hruns : runsBetween (· == '-') ys ≠ [] := by
        intro hnone
        have hjoined := ih hys
        rw [hnone, List.intercalate_nil] at hjoined
        exact hy hjoined.symm
      rw [runsBetween_append_cons (by decide), runsBetween_of_not_mem hx hxs, List.singleton_append,
        List.intercalate_cons_of_ne_nil hruns, ih hys, List.append_assoc, List.singleton_append]

end Slug

/-! ### Slugs of slugs -/

theorem normal_slug (text : String) : Slug.Normal (slug "-" text).toList := by
  rw [Slug.toList_slug]
  exact Slug.normal_intercalate fun p hp => Slug.isPiece_of_mem_spelled hp

/-- A text is its own slug exactly if it is in normal form. -/
theorem slug_eq_self_iff (text : String) : slug "-" text = text ↔ Slug.Normal text.toList := by
  constructor
  · intro h
    have hnormal := normal_slug text
    rwa [h] at hnormal
  · intro h
    apply String.toList_inj.mp
    rw [Slug.toList_slug, Slug.spelled, Slug.flatMap_spell_eq_self h.spelled]
    exact h.intercalate_runsBetween

/-- The slug of a slug is the slug of the text, if the separator in between parts pieces. -/
theorem slug_slug {separator : String} (hne : separator ≠ "")
    (h : ∀ c ∈ separator.toList, Slug.Parts c) (separator' text : String) :
    slug separator' (slug separator text) = slug separator' text := by
  rw [slug, Slug.pieces_slug hne h, ← slug]

/-- **Slugs are in normal form.**  Going over a text in passes makes its slug.  A slug with dashes
consists of letters and digits in runs that single dashes part, or is empty, and every text of this
form is its own slug.  What is spelled as a dash are the blanks, the dash and seven marks; a separator
of such characters can be read back, so that the slug of the slug with any separator is that of the
text.  In particular the slugs with `_` and with `-` do not change any more. -/
theorem slug_normalizes :
    (∀ separator text, slug separator text = Slug.slugByPasses separator text) ∧
      (∀ text, Slug.Normal (slug "-" text).toList) ∧
      (∀ text, slug "-" text = text ↔ Slug.Normal text.toList) ∧
      (∀ c, Slug.spell c = ['-'] ↔ Slug.Parts c) ∧
      (∀ separator, separator ≠ "" → (∀ c ∈ separator.toList, Slug.Parts c) →
        ∀ separator' text, slug separator' (slug separator text) = slug separator' text) ∧
      (∀ text, slug "_" (slug "_" text) = slug "_" text) ∧
      ∀ text, slug "-" (slug "-" text) = slug "-" text := by
  refine ⟨Slug.slug_eq_slugByPasses, normal_slug, slug_eq_self_iff, Slug.spell_eq_dash_iff, ?_,
    slug_slug (by decide) (by simp [Slug.Parts, Slug.marks]) "_",
    slug_slug (by decide) (by simp [Slug.Parts]) "-"⟩
  intro separator hne h
  exact slug_slug hne h

/-- The separator is a blank and a dash, and the text has runs of both at its ends and inside. -/
theorem slug_normalizes_blank_dash :
    " -" ≠ "" ∧ (∀ c ∈ " -".toList, Slug.Parts c) ∧
      slug " -" " --So  I-like " = "so -i -like" ∧
      slug "_" (slug " -" " --So  I-like ") = "so_i_like" := by
  have hparts : ∀ c ∈ " -".toList, Slug.Parts c := by simp [Slug.Parts, isBlank, blankRanges]
  obtain ⟨-, -, -, -, hslug, -, -⟩ := slug_normalizes
  refine ⟨by decide, hparts, by decide +kernel, ?_⟩
  rw [hslug " -" (by decide) hparts]
  decide +kernel

end Typeahead
