import Mathlib.Data.List.Chain
import Typeahead.Proofs.Outcome
import Typeahead.Proofs.Pieces
import Typeahead.Script

/-! # Scripts and their parts

Splitting a script loses nothing and invents nothing: the parts render to the script, and they are
normal, which says that no two literals stand side by side and that parentheses and bars occur only
where rendering puts them (`Script.rendered_of_outside`).  Normal parts are in turn found again in
what they render to (`Script.outside_render`), so that the scripts that can be split and the normal
lists of parts are the same thing written in two ways (`Script.parts_eq_ok_iff`). -/

namespace Typeahead

namespace Script

/-- No character of a list is a parenthesis. -/
def Flat (cs : List Char) : Prop := ∀ c ∈ cs, c ≠ '(' ∧ c ≠ ')'

end Script

namespace Part

open Script (Flat)

/-- Whether a part is a literal. -/
def isLiteral : Part → Bool
  | .literal _ => true
  | .group _ => false

@[simp] theorem isLiteral_literal (text : String) : (literal text).isLiteral = true := rfl

@[simp] theorem isLiteral_group (alternatives : List String) :
    (group alternatives).isLiteral = false := rfl

/-- A part whose text cannot be taken for anything else: a literal is not empty and has no
parentheses, and a group has an alternative and neither parentheses nor bars in its alternatives. -/
def Clean : Part → Prop
  | .literal text => text ≠ "" ∧ Flat text.toList
  | .group alternatives =>
    alternatives ≠ [] ∧ ∀ a ∈ alternatives, Flat a.toList ∧ '|' ∉ a.toList

end Part

namespace Script

/-! ### Normal parts -/

/-- Every part is clean, and no two literals stand side by side. -/
structure Normal (ps : List Part) : Prop where
  clean : ∀ p ∈ ps, p.Clean
  parted : ps.IsChain fun p q => ¬ (p.isLiteral ∧ q.isLiteral)

/-- The first part, if there is one, is a group. -/
def Grouped (ps : List Part) : Prop := ∀ p ∈ ps.head?, p.isLiteral = false

theorem normal_nil : Normal [] := ⟨by simp, .nil⟩

theorem normal_literal_iff {text : String} {ps : List Part} :
    Normal (.literal text :: ps) ↔ (Part.literal text).Clean ∧ Grouped ps ∧ Normal ps := by
  constructor
  · rintro ⟨hclean, hparted⟩
    obtain ⟨htext, hclean⟩ := List.forall_mem_cons.mp hclean
    obtain ⟨hgrouped, hparted⟩ := List.isChain_cons.mp hparted
    exact ⟨htext, by simpa [Grouped] using hgrouped, hclean, hparted⟩
  · rintro ⟨htext, hgrouped, hclean, hparted⟩
    refine ⟨List.forall_mem_cons.mpr ⟨htext, hclean⟩, List.isChain_cons.mpr ⟨?_, hparted⟩⟩
    simpa [Grouped] using hgrouped

theorem normal_group_iff {alternatives : List String} {ps : List Part} :
    Normal (.group alternatives :: ps) ↔ (Part.group alternatives).Clean ∧ Normal ps := by
  constructor
  · rintro ⟨hclean, hparted⟩
    obtain ⟨hgroup, hclean⟩ := List.forall_mem_cons.mp hclean
    exact ⟨hgroup, hclean, (List.isChain_cons.mp hparted).2⟩
  · rintro ⟨hgroup, hclean, hparted⟩
    refine ⟨List.forall_mem_cons.mpr ⟨hgroup, hclean⟩, List.isChain_cons.mpr ⟨?_, hparted⟩⟩
    simp

/-! ### Rendering part by part -/

theorem toList_render_literal (text : String) (ps : List Part) :
    (render (.literal text :: ps)).toList = text.toList ++ (render ps).toList := by
  simp [render, renderPart]

theorem toList_render_group (alternatives : List String) (ps : List Part) :
    (render (.group alternatives :: ps)).toList =
      '(' :: (['|'].intercalate (alternatives.map String.toList) ++ ')' :: (render ps).toList) := by
  simp [render, renderPart, String.toList_intercalate]

/-! ### What is held back -/

section back

variable {back : List Char} {ps : List Part}

theorem flat_cons {c : Char} (hopen : c ≠ '(') (hclose : c ≠ ')') (h : Flat back) :
    Flat (c :: back) := List.forall_mem_cons.mpr ⟨⟨hopen, hclose⟩, h⟩

theorem flat_reverse (h : Flat back) : Flat back.reverse :=
  fun c hc => h c (List.mem_reverse.mp hc)

theorem normal_literal_append (hback : Flat back) (hgrouped : Grouped ps) (hps : Normal ps) :
    Normal (literal back ++ ps) := by
  unfold literal
  split_ifs with hnil
  · exact hps
  · refine normal_literal_iff.mpr ⟨⟨by simpa using hnil, ?_⟩, hgrouped, hps⟩
    simpa using flat_reverse hback

theorem toList_render_literal_append (back : List Char) (ps : List Part) :
    (render (literal back ++ ps)).toList = back.reverse ++ (render ps).toList := by
  unfold literal
  split_ifs with hnil
  · simp [hnil]
  · simp [toList_render_literal]

/-- The alternatives of a group are the pieces of what was held back. -/
theorem clean_group (hback : Flat back) : (group back).Clean := by
  refine ⟨by simp [List.splitOn_ne_nil], ?_⟩
  have hpieces : ∀ piece ∈ back.reverse.splitOn '|', ∀ c ∈ piece,
      (c ≠ '(' ∧ c ≠ ')') ∧ c ≠ '|' := by
    rw [forall_mem_splitOn_iff]
    intro c hc
    by_cases hbar : c = '|'
    · exact .inl hbar
    · exact .inr ⟨flat_reverse hback c hc, hbar⟩
  intro a ha
  obtain ⟨piece, hpiece, rfl⟩ := List.mem_map.mp ha
  rw [String.toList_ofList]
  exact ⟨fun c hc => (hpieces piece hpiece c hc).1, fun hbar => (hpieces piece hpiece '|' hbar).2 rfl⟩

theorem toList_render_group_back (back : List Char) (ps : List Part) :
    (render (group back :: ps)).toList = '(' :: (back.reverse ++ ')' :: (render ps).toList) := by
  rw [group, toList_render_group, List.map_map]
  have hpieces : (back.reverse.splitOn '|').map (String.toList ∘ String.ofList) =
      back.reverse.splitOn '|' := by
    simp
  rw [hpieces, List.intercalate_splitOn]

theorem group_of_clean {alternatives : List String} (h : (Part.group alternatives).Clean) :
    group (['|'].intercalate (alternatives.map String.toList)).reverse = .group alternatives := by
  obtain ⟨hne, hclean⟩ := h
  rw [group, List.reverse_reverse, List.splitOn_intercalate]
  · simp
  · rintro cs hcs
    obtain ⟨a, ha, rfl⟩ := List.mem_map.mp hcs
    exact (hclean a ha).2
  · simpa using hne

theorem flat_of_clean {alternatives : List String} (h : (Part.group alternatives).Clean) :
    Flat (['|'].intercalate (alternatives.map String.toList)) := by
  have hpieces : ∀ piece ∈ (['|'].intercalate (alternatives.map String.toList)).splitOn '|',
      Flat piece := by
    obtain ⟨hne, hclean⟩ := h
    rw [List.splitOn_intercalate '|' ?_ (by simpa using hne)]
    · intro piece hpiece
      obtain ⟨a, ha, rfl⟩ := List.mem_map.mp hpiece
      exact (hclean a ha).1
    · intro piece hpiece
      obtain ⟨a, ha, rfl⟩ := List.mem_map.mp hpiece
      exact (hclean a ha).2
  intro c hc
  rcases (forall_mem_splitOn_iff '|' _).mp hpieces c hc with rfl | hflat
  · decide
  · exact hflat

end back

/-! ### Reading character by character -/

section equations

variable (start offset : ℕ) (back : List Char)

theorem outside_open (rest : List Char) :
    outside offset back ('(' :: rest) =
      (literal back ++ ·) <$> inside offset (offset + 1) [] rest := by
  rw [outside, if_pos rfl]

theorem outside_close (rest : List Char) :
    outside offset back (')' :: rest) = .error ⟨offset, .unmatched⟩ := by
  rw [outside, if_neg (by decide), if_pos rfl]

theorem outside_other {c : Char} (hopen : c ≠ '(') (hclose : c ≠ ')') (rest : List Char) :
    outside offset back (c :: rest) = outside (offset + 1) (c :: back) rest := by
  rw [outside, if_neg hopen, if_neg hclose]

theorem inside_open (rest : List Char) :
    inside start offset back ('(' :: rest) = .error ⟨offset, .nested⟩ := by
  rw [inside, if_pos rfl]

theorem inside_close (rest : List Char) :
    inside start offset back (')' :: rest) = (group back :: ·) <$> outside (offset + 1) [] rest := by
  rw [inside, if_neg (by decide), if_pos rfl]

theorem inside_other {c : Char} (hopen : c ≠ '(') (hclose : c ≠ ')') (rest : List Char) :
    inside start offset back (c :: rest) = inside start (offset + 1) (c :: back) rest := by
  rw [inside, if_neg hopen, if_neg hclose]

end equations

theorem outside_flat {cs : List Char} (h : Flat cs) (offset : ℕ) (back rest : List Char) :
    outside offset back (cs ++ rest) = outside (offset + cs.length) (cs.reverse ++ back) rest := by
  induction cs generalizing offset back with
  | nil => rfl
  | cons c cs ih =>
      obtain ⟨⟨hopen, hclose⟩, hcs⟩ := List.forall_mem_cons.mp h
      rw [List.cons_append, outside_other offset back hopen hclose, ih hcs, List.reverse_cons,
        List.append_assoc, List.singleton_append, List.length_cons]
      congr 1
      omega

theorem inside_flat {cs : List Char} (h : Flat cs) (start offset : ℕ) (back rest : List Char) :
    inside start offset back (cs ++ rest) =
      inside start (offset + cs.length) (cs.reverse ++ back) rest := by
  induction cs generalizing offset back with
  | nil => rfl
  | cons c cs ih =>
      obtain ⟨⟨hopen, hclose⟩, hcs⟩ := List.forall_mem_cons.mp h
      rw [List.cons_append, inside_other start offset back hopen hclose, ih hcs, List.reverse_cons,
        List.append_assoc, List.singleton_append, List.length_cons]
      congr 1
      omega

/-! ### Parts that were read -/

mutual

/-- What is read outside the groups renders to the text that was held back and the text that was
read. -/
theorem rendered_of_outside : ∀ {cs : List Char} {offset : ℕ} {back : List Char} {ps : List Part},
    outside offset back cs = .ok ps → Flat back →
      Normal ps ∧ (render ps).toList = back.reverse ++ cs
  | [], offset, back, ps, h, hback => by
      obtain rfl : literal back = ps := Except.ok.inj h
      rw [← List.append_nil (literal back), toList_render_literal_append]
      exact ⟨normal_literal_append hback (by simp [Grouped]) normal_nil, rfl⟩
  | c :: cs, offset, back, ps, h, hback => by
      by_cases hopen : c = '('
      · subst hopen
        rw [outside_open] at h
        obtain ⟨qs, hqs, rfl⟩ := map_eq_ok_iff.mp h
        obtain ⟨hnormal, hgrouped, hrender⟩ := rendered_of_inside hqs (by simp [Flat])
        rw [toList_render_literal_append, hrender]
        exact ⟨normal_literal_append hback hgrouped hnormal, rfl⟩
      · by_cases hclose : c = ')'
        · subst hclose
          rw [outside_close] at h
          cases h
        · rw [outside_other offset back hopen hclose] at h
          obtain ⟨hnormal, hrender⟩ := rendered_of_outside h (flat_cons hopen hclose hback)
          rw [hrender, List.reverse_cons, List.append_assoc]
          exact ⟨hnormal, rfl⟩

theorem rendered_of_inside : ∀ {cs : List Char} {start offset : ℕ} {back : List Char}
    {ps : List Part}, inside start offset back cs = .ok ps → Flat back →
      Normal ps ∧ Grouped ps ∧ (render ps).toList = '(' :: (back.reverse ++ cs)
  | [], start, offset, back, ps, h, hback => by cases h
  | c :: cs, start, offset, back, ps, h, hback => by
      by_cases hopen : c = '('
      · subst hopen
        rw [inside_open] at h
        cases h
      · by_cases hclose : c = ')'
        · subst hclose
          rw [inside_close] at h
          obtain ⟨qs, hqs, rfl⟩ := map_eq_ok_iff.mp h
          obtain ⟨hnormal, hrender⟩ := rendered_of_outside hqs (by simp [Flat])
          rw [toList_render_group_back, hrender]
          refine ⟨normal_group_iff.mpr ⟨clean_group hback, hnormal⟩, ?_, rfl⟩
          simp [Grouped, group]
        · rw [inside_other start offset back hopen hclose] at h
          obtain ⟨hnormal, hgrouped, hrender⟩ :=
            rendered_of_inside h (flat_cons hopen hclose hback)
          rw [hrender, List.reverse_cons, List.append_assoc]
          exact ⟨hnormal, hgrouped, rfl⟩

end

/-! ### Parts that are found again -/

/-- Text that is held back becomes a literal as soon as a group or the end of the script follows. -/
theorem outside_render_of_grouped {ps : List Part} (hgrouped : Grouped ps) (offset : ℕ)
    (back : List Char) (h : outside offset [] (render ps).toList = .ok ps) :
    outside offset back (render ps).toList = .ok (literal back ++ ps) := by
  cases ps with
  | nil =>
      rw [List.append_nil]
      rfl
  | cons p ps =>
      cases p with
      | literal text => exact absurd (hgrouped _ rfl) (by simp)
      | group alternatives =>
          rw [toList_render_group, outside_open] at h ⊢
          obtain ⟨qs, hqs, hps⟩ := map_eq_ok_iff.mp h
          obtain rfl : qs = .group alternatives :: ps := hps
          rw [hqs]
          rfl

/-- Normal parts are found again in what they render to. -/
theorem outside_render {ps : List Part} (h : Normal ps) (offset : ℕ) :
    outside offset [] (render ps).toList = .ok ps := by
  induction ps generalizing offset with
  | nil => rfl
  | cons p ps ih =>
      cases p with
      | literal text =>
          obtain ⟨⟨hne, hflat⟩, hgrouped, hps⟩ := normal_literal_iff.mp h
          rw [toList_render_literal, outside_flat hflat,
            outside_render_of_grouped hgrouped _ _ (ih hps _)]
          simp [literal, hne]
      | group alternatives =>
          obtain ⟨hclean, hps⟩ := normal_group_iff.mp h
          rw [toList_render_group, outside_open, inside_flat (flat_of_clean hclean), inside_close,
            ih hps, List.append_nil, group_of_clean hclean]
          rfl

/-- **Splitting undoes rendering.**  A script is split into some parts exactly if they render to the
script and are normal: so what a script is split into always renders to that script, and normal
parts, and no others, are found again in what they render to. -/
theorem parts_eq_ok_iff (script : String) (ps : List Part) :
    parts script = .ok ps ↔ render ps = script ∧ Normal ps := by
  constructor
  · intro h
    obtain ⟨hnormal, hrender⟩ := rendered_of_outside h (by simp [Flat])
    exact ⟨String.toList_inj.mp hrender, hnormal⟩
  · rintro ⟨rfl, hnormal⟩
    exact outside_render hnormal 0

/-- A bar is text outside the groups, and an alternative may be empty. -/
example : parts "é|a(b|)()" = .ok [.literal "é|a", .group ["b", ""], .group [""]] := by
  decide +kernel

end Script
end Typeahead
