import Typeahead.Proofs.Words
import Typeahead.Slug

/-! # Spellings and their pieces

A character is spelled with letters from `a` to `z`, digits and dashes (`mem_spell`); a letter or a
digit is its own spelling, and what is spelled as a single dash are the blanks, the dash and seven
marks (`spell_eq_dash_iff`).  Of the tables only two facts are used, which are checked entry by entry:
what pairs of capital and small letters are made of (`foreign_letterPairs`), and what a row spells
with (`spells_of_mem`).  The pieces of a text are the runs between the dashes of its spelling
(`spelled`), so they follow the same two equations as its words: letters and digits form one piece
(`spelled_of_isPiece`), and characters that part pieces part those before them from those
behind them (`spelled_append_parts`).  Pieces that are joined by such characters are found again
(`spelled_intercalate`). -/

namespace Typeahead
namespace Slug

/-- A letter from `a` to `z` or a digit. -/
def Alphanumeric (c : Char) : Prop := ('a' ≤ c ∧ c ≤ 'z') ∨ ('0' ≤ c ∧ c ≤ '9')

instance (c : Char) : Decidable (Alphanumeric c) := inferInstanceAs (Decidable (_ ∨ _))

/-- The marks that part two pieces: the last one is the apostrophe. -/
def marks : List Char := ['·', '/', '_', ',', ':', ';', '\x27']

/-- A character that parts two pieces: a blank, a dash or a mark. -/
def Parts (c : Char) : Prop := isBlank c = true ∨ c = '-' ∨ c ∈ marks

instance (c : Char) : Decidable (Parts c) := inferInstanceAs (Decidable (_ ∨ _))

/-! ### Letters and digits -/

theorem forall_ascii {P : Char → Prop} (h : ∀ n < 128, P (Char.ofNat n)) {c : Char}
    (hc : c.toNat < 128) : P c := by
  have hP := h c.toNat hc
  rwa [Char.ofNat_toNat] at hP

theorem isAlphanum_iff (c : Char) :
    c.isAlphanum = true ↔ ('A' ≤ c ∧ c ≤ 'Z') ∨ Alphanumeric c := by
  have hupper : c.isUpper = true ↔ 'A' ≤ c ∧ c ≤ 'Z' := decide_eq_true_iff
  have hlower : c.isLower = true ↔ 'a' ≤ c ∧ c ≤ 'z' :=
    Bool.and_eq_true_iff.trans (and_congr decide_eq_true_iff decide_eq_true_iff)
  have hdigit : c.isDigit = true ↔ '0' ≤ c ∧ c ≤ '9' :=
    Bool.and_eq_true_iff.trans (and_congr decide_eq_true_iff decide_eq_true_iff)
  have hany : c.isAlphanum = (c.isUpper || c.isLower || c.isDigit) := rfl
  rw [hany, Bool.or_eq_true, Bool.or_eq_true, hupper, hlower, hdigit, or_assoc]
  rfl

theorem Alphanumeric.isAlphanum {c : Char} (h : Alphanumeric c) : c.isAlphanum = true :=
  (isAlphanum_iff c).mpr (.inr h)

theorem toNat_lt_of_isAlphanum {c : Char} (h : c.isAlphanum = true) : c.toNat < 128 := by
  rw [isAlphanum_iff] at h
  simp only [Alphanumeric, Char.le_def, UInt32.le_iff_toNat_le] at h
  simp at h
  omega

theorem not_parts_of_isAlphanum {c : Char} (h : c.isAlphanum = true) : ¬ Parts c :=
  forall_ascii (P := fun c => c.isAlphanum = true → ¬ Parts c) (by decide +kernel)
    (toNat_lt_of_isAlphanum h) h

theorem isBlank_of_isAlphanum {c : Char} (h : c.isAlphanum = true) : isBlank c = false := by
  rw [← Bool.not_eq_true]
  exact fun hblank => not_parts_of_isAlphanum h (.inl hblank)

/-! ### Capital and small letters -/

/-- A character that is no letter from `a` to `z` and no digit, and parts no pieces. -/
def Foreign (c : Char) : Prop := c.isAlphanum = false ∧ ¬ Parts c

instance (c : Char) : Decidable (Foreign c) := inferInstanceAs (Decidable (_ ∧ _))

theorem foreign_zip {cs ds : List Char} (h : ∀ pair ∈ cs.zip ds, Foreign pair.1 ∧ Foreign pair.2) :
    ∀ pair ∈ (String.ofList cs).toList.zip (String.ofList ds).toList,
      Foreign pair.1 ∧ Foreign pair.2 := by
  rwa [String.toList_ofList, String.toList_ofList]

theorem foreign_letterPairs : ∀ pair ∈ letterPairs, Foreign pair.1 ∧ Foreign pair.2 := by
  unfold letterPairs
  rw [List.forall_mem_flatMap]
  simp only [letterRows, List.forall_mem_cons]
  -- The characters of a row are read off its text by unification, which is fast.
  repeat refine ⟨foreign_zip (by decide +kernel), ?_⟩
  simp

theorem foreign_oddCapitals :
    ∀ odd ∈ oddCapitals, Foreign odd.1 ∧ ∀ l ∈ odd.2, Alphanumeric l ∨ Foreign l := by
  simp only [oddCapitals, List.forall_mem_cons, List.not_mem_nil, false_implies, implies_true,
    and_true]
  decide +kernel

theorem partner_cases {side other : Char × Char → Char} {c : Char} (hc : ¬ c.toNat < 128)
    (hpairs : ∀ pair ∈ letterPairs, Foreign (side pair) ∧ Foreign (other pair)) :
    (Foreign c ∧ Foreign (partner side other c)) ∨
      (c.isAlphanum = false ∧ partner side other c = c) := by
  unfold partner
  cases hpair : letterPairs.find? fun pair => side pair == c with
  | none =>
      refine .inr ⟨?_, rfl⟩
      rw [← Bool.not_eq_true]
      exact fun h => hc (toNat_lt_of_isAlphanum h)
  | some pair =>
      have hforeign := hpairs pair (List.mem_of_find?_eq_some hpair)
      obtain rfl : side pair = c := by simpa using List.find?_some hpair
      exact .inl hforeign

theorem small_cases (c : Char) :
    (c.isAlphanum = true ∧ Alphanumeric (small c)) ∨ (Foreign c ∧ Foreign (small c)) ∨
      (c.isAlphanum = false ∧ small c = c) := by
  unfold small
  split_ifs with hc
  · have hascii := forall_ascii (P := fun c => (c.isAlphanum = true ∧ Alphanumeric c.toLower) ∨
      (c.isAlphanum = false ∧ c.toLower = c)) (by decide +kernel) hc
    exact hascii.imp_right .inr
  · exact .inr (partner_cases hc foreign_letterPairs)

theorem capital_cases (c : Char) :
    (c.isAlphanum = true ∧ (capital c).isAlphanum = true) ∨ (Foreign c ∧ Foreign (capital c)) ∨
      (c.isAlphanum = false ∧ capital c = c) := by
  unfold capital
  split_ifs with hc
  · have hascii := forall_ascii (P := fun c => (c.isAlphanum = true ∧ c.toUpper.isAlphanum = true) ∨
      (c.isAlphanum = false ∧ c.toUpper = c)) (by decide +kernel) hc
    exact hascii.imp_right .inr
  · exact .inr (partner_cases hc fun pair hpair => (foreign_letterPairs pair hpair).symm)

/-- Lowering makes no new mark, and no capital letter from `A` to `Z` is left. -/
theorem mem_lowered {c l : Char} (h : l ∈ lowered c) :
    Alphanumeric l ∨ Foreign l ∨ (c.isAlphanum = false ∧ l = c) := by
  unfold lowered at h
  cases hodd : oddCapitals.find? fun odd => odd.1 == c with
  | some odd =>
      rw [hodd] at h
      rcases (foreign_oddCapitals odd (List.mem_of_find?_eq_some hodd)).2 l h with halpha | hl
      · exact .inl halpha
      · exact .inr (.inl hl)
  | none =>
      rw [hodd] at h
      obtain rfl := List.mem_singleton.mp h
      rcases small_cases c with ⟨-, halpha⟩ | ⟨-, hl⟩ | hc
      · exact .inl halpha
      · exact .inr (.inl hl)
      · exact .inr (.inr hc)

theorem lowered_of_not_foreign {c : Char} (h : ¬ Foreign c) : lowered c = [small c] := by
  unfold lowered
  cases hodd : oddCapitals.find? fun odd => odd.1 == c with
  | none => rfl
  | some odd =>
      have hforeign := (foreign_oddCapitals odd (List.mem_of_find?_eq_some hodd)).1
      rw [show odd.1 = c by simpa using List.find?_some hodd] at hforeign
      exact absurd hforeign h

theorem lowered_of_alphanumeric {c : Char} (h : Alphanumeric c) : lowered c = [c] := by
  have hc := toNat_lt_of_isAlphanum h.isAlphanum
  have hsmall : small c = c := by
    rw [small, if_pos hc]
    exact forall_ascii (P := fun c => Alphanumeric c → c.toLower = c) (by decide +kernel) hc h
  rw [lowered_of_not_foreign fun hforeign => Bool.false_ne_true (hforeign.1.symm.trans h.isAlphanum),
    hsmall]

theorem lowered_of_parts {c : Char} (h : Parts c) : lowered c = [c] := by
  rw [lowered_of_not_foreign fun hforeign => hforeign.2 h]
  rcases small_cases c with ⟨halphanum, -⟩ | ⟨hforeign, -⟩ | ⟨-, hsmall⟩
  · exact absurd h (not_parts_of_isAlphanum halphanum)
  · exact absurd h hforeign.2
  · rw [hsmall]

theorem capital_of_parts {c : Char} (h : Parts c ∨ Parts (capital c)) : capital c = c := by
  rcases capital_cases c with ⟨halphanum, hcapital⟩ | ⟨hforeign, hcapital⟩ | ⟨-, hcapital⟩
  · rcases h with h | h
    · exact absurd h (not_parts_of_isAlphanum halphanum)
    · exact absurd h (not_parts_of_isAlphanum hcapital)
  · rcases h with h | h
    · exact absurd h hforeign.2
    · exact absurd h hcapital.2
  · exact hcapital

/-! ### Rows -/

/-- A row spells with letters, digits and dashes, it holds no letter from `a` to `z`, digit or dash,
and it spells with one dash alone if its characters are marks. -/
def Spells (row : List Char × List Char) : Prop :=
  (∀ a ∈ row.2, Alphanumeric a ∨ a = '-') ∧
    ∀ c ∈ row.1, c.isAlphanum = false ∧ c ≠ '-' ∧ (c ∈ marks ↔ row.2 = ['-'])

instance (row : List Char × List Char) : Decidable (Spells row) :=
  @instDecidableAnd _ _ (List.decidableBAll _ row.2) (List.decidableBAll _ row.1)

theorem spells_text {cs spelling : List Char} (h : Spells (cs, spelling)) :
    Spells ((String.ofList cs).toList, (String.ofList spelling).toList) := by
  rwa [String.toList_ofList, String.toList_ofList]

theorem spells_of_mem : ∀ row ∈ folds, Spells row := by
  unfold folds
  rw [List.forall_mem_map]
  simp only [foldRows, List.forall_mem_cons]
  repeat refine ⟨spells_text (by decide +kernel), ?_⟩
  simp

theorem exists_row_of_mark : ∃ row ∈ folds, ∀ c ∈ marks, c ∈ row.1 := by
  refine ⟨_, List.mem_map_of_mem (show ("·/_,:;'", "-") ∈ foldRows by simp [foldRows]), ?_⟩
  simp [marks]

theorem fold?_cases (c : Char) :
    (∃ row ∈ folds, (c ∈ row.1 ∨ capital c ∈ row.1) ∧ fold? c = some row.2) ∨
      ((∀ row ∈ folds, c ∉ row.1 ∧ capital c ∉ row.1) ∧ fold? c = none) := by
  unfold fold?
  cases hrow : folds.find? fun row => row.1.contains c || row.1.contains (capital c) with
  | none => exact .inr ⟨by simpa using List.find?_eq_none.mp hrow, rfl⟩
  | some row =>
      left
      exact ⟨row, List.mem_of_find?_eq_some hrow, by simpa using List.find?_some hrow, rfl⟩

/-- No row holds a letter from `a` to `z`, a digit or a dash, so it does not show whether they are
looked for before the rows or after them. -/
theorem fold?_eq_none {c : Char} (h : c.isAlphanum = true ∨ c = '-') : fold? c = none := by
  have hcapital : (capital c).isAlphanum = true ∨ capital c = '-' := by
    rcases h with h | rfl
    · left
      rcases capital_cases c with ⟨-, hc⟩ | ⟨hforeign, -⟩ | ⟨hc, -⟩
      · exact hc
      · rw [hforeign.1] at h
        cases h
      · rw [hc] at h
        cases h
    · exact .inr (capital_of_parts (.inl (.inr (.inl rfl))))
  have hnot : ∀ row ∈ folds, ∀ d ∈ row.1, ¬ (d.isAlphanum = true ∨ d = '-') := by
    intro row hrow d hd
    obtain ⟨halphanum, hdash, -⟩ := (spells_of_mem row hrow).2 d hd
    simp [halphanum, hdash]
  rcases fold?_cases c with ⟨row, hrow, hc | hc, -⟩ | ⟨-, hnone⟩
  · exact absurd h (hnot row hrow c hc)
  · exact absurd hcapital (hnot row hrow _ hc)
  · exact hnone

theorem fold?_eq_dash_iff (c : Char) : fold? c = some ['-'] ↔ c ∈ marks := by
  constructor
  · intro h
    rcases fold?_cases c with ⟨row, hrow, hc, hfold⟩ | ⟨-, hnone⟩
    · have hdash : row.2 = ['-'] := Option.some.inj (hfold.symm.trans h)
      rcases hc with hc | hc
      · exact ((spells_of_mem row hrow).2 c hc).2.2.mpr hdash
      · have hmark := ((spells_of_mem row hrow).2 _ hc).2.2.mpr hdash
        rwa [capital_of_parts (.inr (.inr (.inr hmark)))] at hmark
    · rw [h] at hnone
      cases hnone
  · intro h
    rcases fold?_cases c with ⟨row, hrow, hc, hfold⟩ | ⟨hnone, -⟩
    · rw [capital_of_parts (.inl (.inr (.inr h))), or_self] at hc
      rw [hfold, ((spells_of_mem row hrow).2 c hc).2.2.mp h]
    · obtain ⟨row, hrow, hmem⟩ := exists_row_of_mark
      exact absurd (hmem c h) (hnone row hrow).1

/-! ### Spellings of characters -/

theorem spellLowered_of_isAlphanum {c : Char} (h : c.isAlphanum = true) : spellLowered c = [c] := by
  have hparts := not_parts_of_isAlphanum h
  simp only [Parts, not_or] at hparts
  simp [spellLowered, hparts, h]

theorem spellLowered_of_not {c : Char} (hdash : ¬ (isBlank c = true ∨ c = '-'))
    (halphanum : ¬ c.isAlphanum = true) :
    spellLowered c = (fold? c).getD (if c = '&' then ['-', 'a', 'n', 'd', '-'] else []) := by
  rw [spellLowered, if_neg (by simpa using hdash), if_neg halphanum]

theorem spellLowered_eq_dash_iff (c : Char) : spellLowered c = ['-'] ↔ Parts c := by
  by_cases hdash : isBlank c = true ∨ c = '-'
  · rw [spellLowered, if_pos (by simpa using hdash), Parts, ← or_assoc]
    simp [hdash]
  by_cases halphanum : c.isAlphanum = true
  · rw [spellLowered_of_isAlphanum halphanum, List.singleton_inj]
    constructor
    · intro h
      exact absurd (.inr h) hdash
    · intro h
      exact absurd h (not_parts_of_isAlphanum halphanum)
  have hparts : Parts c ↔ fold? c = some ['-'] := by
    rw [fold?_eq_dash_iff, Parts, ← or_assoc, or_iff_right hdash]
  rw [spellLowered_of_not hdash halphanum, hparts]
  cases fold? c with
  | none => split_ifs <;> simp
  | some spelling => simp

theorem mem_spellLowered {c a : Char} (hc : c.isAlphanum = true → Alphanumeric c)
    (h : a ∈ spellLowered c) : Alphanumeric a ∨ a = '-' := by
  by_cases hdash : isBlank c = true ∨ c = '-'
  · rw [spellLowered, if_pos (by simpa using hdash)] at h
    exact .inr (List.mem_singleton.mp h)
  by_cases halphanum : c.isAlphanum = true
  · rw [spellLowered_of_isAlphanum halphanum] at h
    obtain rfl := List.mem_singleton.mp h
    exact .inl (hc halphanum)
  rw [spellLowered_of_not hdash halphanum] at h
  rcases fold?_cases c with ⟨row, hrow, -, hfold⟩ | ⟨-, hnone⟩
  · rw [hfold] at h
    exact (spells_of_mem row hrow).1 a h
  · have hand : ∀ b ∈ ['-', 'a', 'n', 'd', '-'], Alphanumeric b ∨ b = '-' := by
      simp [Alphanumeric]
    rw [hnone, Option.getD_none] at h
    split_ifs at h
    · exact hand a h
    · cases h

theorem spell_alphanumeric {c : Char} (h : Alphanumeric c) : spell c = [c] := by
  rw [spell, lowered_of_alphanumeric h, List.flatMap_singleton,
    spellLowered_of_isAlphanum h.isAlphanum]

theorem mem_spell {c a : Char} (h : a ∈ spell c) : Alphanumeric a ∨ a = '-' := by
  obtain ⟨l, hl, ha⟩ := List.mem_flatMap.mp h
  refine mem_spellLowered (fun halphanum => ?_) ha
  rcases mem_lowered hl with halpha | hforeign | ⟨hc, rfl⟩
  · exact halpha
  · rw [hforeign.1] at halphanum
    cases halphanum
  · rw [hc] at halphanum
    cases halphanum

/-- What is spelled as a single dash is what parts two pieces. -/
theorem spell_eq_dash_iff (c : Char) : spell c = ['-'] ↔ Parts c := by
  constructor
  · intro h
    obtain ⟨l, hl, hdash⟩ := List.mem_flatMap.mp (h ▸ List.mem_singleton_self '-')
    have hsub : (spellLowered l).Sublist ['-'] :=
      h ▸ List.sublist_flatten_of_mem (List.mem_map_of_mem hl)
    have hspell : spellLowered l = ['-'] :=
      (List.sublist_singleton.mp hsub).resolve_left (List.ne_nil_of_mem hdash)
    have hparts := (spellLowered_eq_dash_iff l).mp hspell
    rcases mem_lowered hl with halpha | hforeign | ⟨-, rfl⟩
    · exact absurd hparts (not_parts_of_isAlphanum halpha.isAlphanum)
    · exact absurd hparts hforeign.2
    · exact hparts
  · intro h
    rw [spell, lowered_of_parts h, List.flatMap_singleton, (spellLowered_eq_dash_iff c).mpr h]

theorem spell_dash : spell '-' = ['-'] := (spell_eq_dash_iff '-').mpr (by decide)

/-! ### Pieces -/

/-- The runs of letters and digits between the dashes of a spelling. -/
def spelled (cs : List Char) : List (List Char) := runsBetween (· == '-') (cs.flatMap spell)

theorem pieces_eq (text : String) : pieces text = (spelled text.toList).map String.ofList := rfl

/-- A run of letters and digits. -/
def IsPiece (piece : List Char) : Prop := piece ≠ [] ∧ ∀ c ∈ piece, Alphanumeric c

theorem IsPiece.not_mem_of {piece : List Char} (h : IsPiece piece) {mark : Char}
    (hmark : ¬ Alphanumeric mark) : mark ∉ piece := fun hmem => hmark (h.2 mark hmem)

theorem IsPiece.not_mem {piece : List Char} (h : IsPiece piece) : '-' ∉ piece :=
  h.not_mem_of (by decide)

theorem isPiece_of_mem_spelled {cs piece : List Char} (h : piece ∈ spelled cs) : IsPiece piece := by
  obtain ⟨hne, hmem⟩ := mem_runsBetween h
  refine ⟨hne, fun a ha => ?_⟩
  obtain ⟨haspell, hdash⟩ := hmem a ha
  obtain ⟨c, -, hac⟩ := List.mem_flatMap.mp haspell
  rcases mem_spell hac with halpha | rfl
  · exact halpha
  · cases hdash

theorem flatMap_spell_eq_self {cs : List Char} (h : ∀ c ∈ cs, Alphanumeric c ∨ c = '-') :
    cs.flatMap spell = cs := by
  induction cs with
  | nil => rfl
  | cons c cs ih =>
      obtain ⟨hc, hcs⟩ := List.forall_mem_cons.mp h
      have hspell : spell c = [c] := by
        rcases hc with halpha | rfl
        · exact spell_alphanumeric halpha
        · exact spell_dash
      rw [List.flatMap_cons, hspell, ih hcs]
      rfl

theorem spelled_of_isPiece {piece : List Char} (h : IsPiece piece) : spelled piece = [piece] := by
  unfold spelled
  rw [flatMap_spell_eq_self fun c hc => .inl (h.2 c hc)]
  exact runsBetween_of_not_mem h.1 h.not_mem

theorem spelled_append_cons {c : Char} (hc : Parts c) (xs ys : List Char) :
    spelled (xs ++ c :: ys) = spelled xs ++ spelled ys := by
  unfold spelled
  rw [List.flatMap_append, List.flatMap_cons, (spell_eq_dash_iff c).mpr hc]
  exact runsBetween_append_cons (by decide) _ _

theorem spelled_parts_append {gap : List Char} (h : ∀ c ∈ gap, Parts c) (ys : List Char) :
    spelled (gap ++ ys) = spelled ys := by
  induction gap with
  | nil => rfl
  | cons c gap ih =>
      obtain ⟨hc, hgap⟩ := List.forall_mem_cons.mp h
      rw [← ih hgap]
      exact spelled_append_cons hc [] (gap ++ ys)

/-- Characters that part pieces part those before them from those behind them. -/
theorem spelled_append_parts {gap : List Char} (hne : gap ≠ []) (h : ∀ c ∈ gap, Parts c)
    (xs ys : List Char) : spelled (xs ++ gap ++ ys) = spelled xs ++ spelled ys := by
  obtain ⟨c, rest, rfl⟩ := List.exists_cons_of_ne_nil hne
  obtain ⟨hc, hrest⟩ := List.forall_mem_cons.mp h
  rw [List.append_assoc, List.cons_append, spelled_append_cons hc, spelled_parts_append hrest]

/-- Pieces that are joined by characters that part them are found again. -/
theorem spelled_intercalate {gap : List Char} (hne : gap ≠ []) (h : ∀ c ∈ gap, Parts c) :
    ∀ {ps : List (List Char)}, (∀ p ∈ ps, IsPiece p) → spelled (gap.intercalate ps) = ps
  | [], _ => by
      rw [List.intercalate_nil]
      rfl
  | [p], hps => by
      rw [List.intercalate_singleton]
      exact spelled_of_isPiece (hps p List.mem_cons_self)
  | p :: q :: ps, hps => by
      have ih := spelled_intercalate hne h fun r hr => hps r (List.mem_cons_of_mem p hr)
      rw [List.intercalate_cons_cons, spelled_append_parts hne h, ih,
        spelled_of_isPiece (hps p List.mem_cons_self)]
      rfl

theorem toList_slug (separator text : String) :
    (slug separator text).toList = separator.toList.intercalate (spelled text.toList) := by
  rw [slug, pieces_eq, String.toList_intercalate, List.map_map]
  simp

/-- A slug has the pieces of its text, if its separator parts them. -/
theorem pieces_slug {separator : String} (hne : separator ≠ "")
    (h : ∀ c ∈ separator.toList, Parts c) (text : String) :
    pieces (slug separator text) = pieces text := by
  have hgap : separator.toList ≠ [] := by simpa using hne
  rw [pieces_eq, toList_slug, spelled_intercalate hgap h fun p hp => isPiece_of_mem_spelled hp]
  rfl

end Slug
end Typeahead
