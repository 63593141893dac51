import Mathlib.Data.List.Basic
import Typeahead.Expansion

/-! # Ordered products of phrases

`product us ws` lists every phrase of `us` followed by every phrase of `ws`; the second one varies
fastest.  The product is associative, the list of the empty text is its unit, and it distributes
over concatenation on the left.  The phrases of an expansion are the product of its beginnings and
of the phrases of its branches, so that making one expansion follow another multiplies their phrases
(`words_append`).  Collecting up to a limit finds the first phrases (`toList_collect`). -/

namespace Typeahead

/-- Every phrase of the first list followed by every phrase of the second. -/
def product (us ws : List String) : List String := us.flatMap fun u => ws.map (u ++ ·)

section product

variable (us vs ws : List String)

theorem product_cons (u : String) : product (u :: us) ws = ws.map (u ++ ·) ++ product us ws := rfl

theorem product_append_left : product (us ++ vs) ws = product us ws ++ product vs ws :=
  List.flatMap_append

@[simp] theorem product_one_left : product [""] ws = ws := by
  simp [product]

theorem product_singleton_right (t : String) : product us [t] = us.map (· ++ t) := by
  induction us with
  | nil => rfl
  | cons u us ih =>
      rw [product_cons, ih]
      rfl

theorem product_map_left (t : String) :
    product (us.map (t ++ ·)) ws = (product us ws).map (t ++ ·) := by
  induction us with
  | nil => rfl
  | cons u us ih =>
      rw [List.map_cons, product_cons, product_cons, ih, List.map_append, List.map_map]
      congr 2
      funext w
      exact String.append_assoc

theorem product_assoc : product (product us vs) ws = product us (product vs ws) := by
  induction us with
  | nil => rfl
  | cons u us ih =>
      rw [product_cons, product_cons, product_append_left, product_map_left, ih]

theorem mem_product {us ws : List String} {v : String} :
    v ∈ product us ws ↔ ∃ u ∈ us, ∃ w ∈ ws, u ++ w = v := by
  simp [product]

end product

namespace Expansion

/-! ### Phrases of an expansion -/

@[simp] theorem words_terminal (literals : List String) :
    words ⟨literals, []⟩ = heads literals := rfl

theorem words_branching (literals : List String) {branches : List Expansion} (h : branches ≠ []) :
    words ⟨literals, branches⟩ = product (heads literals) (wordsAll branches) := by
  rw [words, if_neg (by simpa using h)]
  rfl

theorem appendAll_ne_nil {branches : List Expansion} (h : branches ≠ []) (tail : Expansion) :
    appendAll branches tail ≠ [] := by
  cases branches with
  | nil => exact absurd rfl h
  | cons branch rest => simp [appendAll]

theorem append_terminal (literals : List String) (tail : Expansion) :
    append ⟨literals, []⟩ tail = ⟨literals, [tail]⟩ := rfl

theorem append_branching (literals : List String) {branches : List Expansion} (h : branches ≠ [])
    (tail : Expansion) : append ⟨literals, branches⟩ tail = ⟨literals, appendAll branches tail⟩ := by
  rw [append, if_neg (by simpa using h)]

mutual

/-- Making one expansion follow another multiplies their phrases. -/
theorem words_append (tail : Expansion) :
    ∀ e : Expansion, (e.append tail).words = product e.words tail.words
  | ⟨literals, []⟩ => by
      rw [append_terminal, words_branching literals (List.cons_ne_nil _ _), words_terminal]
      simp [wordsAll]
  | ⟨literals, branch :: rest⟩ => by
      have h : branch :: rest ≠ [] := List.cons_ne_nil _ _
      rw [append_branching literals h, words_branching literals (appendAll_ne_nil h tail),
        wordsAll_appendAll tail (branch :: rest), words_branching literals h, product_assoc]

theorem wordsAll_appendAll (tail : Expansion) :
    ∀ branches : List Expansion,
      wordsAll (appendAll branches tail) = product (wordsAll branches) tail.words
  | [] => rfl
  | branch :: rest => by
      rw [appendAll, wordsAll, wordsAll, product_append_left, words_append tail branch,
        wordsAll_appendAll tail rest]

end

/-! ### Phrases up to a limit -/

theorem take_take_append {α : Type} (n : ℕ) (l m : List α) :
    (l.take n ++ m).take n = (l ++ m).take n := by
  rw [List.take_append, List.take_append, List.take_take, Nat.min_self, List.length_take]
  congr 2
  omega

theorem size_le_of_toList_eq_take {limit : ℕ} {found : Array String} {l : List String}
    (h : found.toList = l.take limit) : found.size ≤ limit := by
  rw [← Array.length_toList, h]
  exact List.length_take_le limit l

/-- A loop whose rounds add phrases until the limit is reached adds the phrases of all rounds, up
to the limit. -/
theorem toList_foldl_take {limit : ℕ} {step : Array String → String → Array String}
    {out : String → List String}
    (hstep : ∀ found head, found.size < limit →
      (step found head).toList = (found.toList ++ out head).take limit)
    (heads : List String) (found : Array String) (h : found.size ≤ limit) :
    (heads.foldl (fun found head => if limit ≤ found.size then found else step found head)
      found).toList = (found.toList ++ heads.flatMap out).take limit := by
  induction heads generalizing found with
  | nil => simp [List.take_of_length_le h]
  | cons head heads ih =>
      have hs : (if limit ≤ found.size then found else step found head).toList =
          (found.toList ++ out head).take limit := by
        split_ifs with hfull
        · rw [List.take_append_of_le_length (by simpa using hfull),
            List.take_of_length_le (by simpa using h)]
        · exact hstep found head (by omega)
      rw [List.foldl_cons, ih _ (size_le_of_toList_eq_take hs), hs, take_take_append,
        List.append_assoc]
      rfl

mutual

/-- Collecting adds the phrases, each behind the lead, and stops at the limit. -/
theorem toList_collect (limit : ℕ) :
    ∀ (e : Expansion) (lead : String) (found : Array String), found.size ≤ limit →
      (collect limit lead found e).toList = (found.toList ++ e.words.map (lead ++ ·)).take limit
  | ⟨literals, []⟩, lead, found, h => by
      have hstep : ∀ (found : Array String) (head : String), found.size < limit →
          (found.push (lead ++ head)).toList = (found.toList ++ [lead ++ head]).take limit := by
        intro found head h
        rw [Array.toList_push, List.take_of_length_le (by simp; omega)]
      rw [collect, words_terminal, List.map_eq_flatMap]
      exact toList_foldl_take hstep (heads literals) found h
  | ⟨literals, branch :: rest⟩, lead, found, h => by
      have hstep : ∀ (found : Array String) (head : String), found.size < limit →
          (collectAll limit (lead ++ head) found (branch :: rest)).toList =
            (found.toList ++ (wordsAll (branch :: rest)).map (lead ++ head ++ ·)).take limit :=
        fun found head h => toList_collectAll limit (branch :: rest) (lead ++ head) found (Nat.le_of_lt h)
      have hwords : (words ⟨literals, branch :: rest⟩).map (lead ++ ·) =
          (heads literals).flatMap
            fun head => (wordsAll (branch :: rest)).map (lead ++ head ++ ·) := by
        rw [words_branching literals (List.cons_ne_nil _ _), product, List.map_flatMap]
        simp only [List.map_map, Function.comp_def, String.append_assoc]
      rw [collect, hwords]
      exact toList_foldl_take hstep (heads literals) found h

theorem toList_collectAll (limit : ℕ) :
    ∀ (branches : List Expansion) (lead : String) (found : Array String), found.size ≤ limit →
      (collectAll limit lead found branches).toList =
        (found.toList ++ (wordsAll branches).map (lead ++ ·)).take limit
  | [], lead, found, h => by
      simp [collectAll, wordsAll, List.take_of_length_le h]
  | branch :: rest, lead, found, h => by
      have hb := toList_collect limit branch lead found h
      rw [collectAll, toList_collectAll limit rest lead _ (size_le_of_toList_eq_take hb), hb,
        take_take_append, wordsAll, List.map_append, List.append_assoc]

end

theorem firstWords_eq_take (limit : ℕ) (e : Expansion) :
    e.firstWords limit = e.words.take limit := by
  rw [firstWords, toList_collect limit e "" #[] (Nat.zero_le _)]
  simp

end Expansion

end Typeahead
