/-! # Tables keyed by text

A `Table α` gives at most one value to each key and lists its entries by strictly increasing key.
Keys are compared code point by code point, which is also the order of their UTF-8 bytes, so the
order in which entries are visited is decided by the keys alone.  Two tables are equal as soon as
every key finds the same value in both (`Table.ext_get?`). -/

namespace Typeahead

/-- A finite map from text keys, listed by strictly increasing key. -/
@[ext] structure Table (α : Type) where
  /-- The entries, in the order of their keys. -/
  entries : List (String × α)
  /-- Every key is smaller than all later ones. -/
  increasing : entries.Pairwise (fun a b => a.1 < b.1)

namespace Table

variable {α β : Type}

/-! ### Executable definitions -/

/-- Writes one entry into a list ordered by key, in place of an entry with the same key. -/
def place (key : String) (value : α) : List (String × α) → List (String × α)
  | [] => [(key, value)]
  | (k, v) :: rest =>
    if key < k then (key, value) :: (k, v) :: rest
    else if key = k then (key, value) :: rest
    else (k, v) :: place key value rest

theorem mem_place {key : String} {value : α} {e : String × α} {l : List (String × α)}
    (h : e ∈ place key value l) : e = (key, value) ∨ e ∈ l := by
  induction l with
  | nil => simpa [place] using h
  | cons head rest ih =>
    obtain ⟨k, v⟩ := head
    rw [place] at h
    split at h
    · simpa using h
    · split at h
      · rcases List.mem_cons.1 h with h | h
        · exact .inl h
        · exact .inr (List.mem_cons_of_mem _ h)
      · rcases List.mem_cons.1 h with h | h
        · exact .inr (h ▸ List.mem_cons_self)
        · exact (ih h).imp_right (List.mem_cons_of_mem _)

theorem pairwise_place (key : String) (value : α) {l : List (String × α)}
    (h : l.Pairwise (fun a b => a.1 < b.1)) :
    (place key value l).Pairwise (fun a b => a.1 < b.1) := by
  induction l with
  | nil => simp [place]
  | cons head rest ih =>
    obtain ⟨k, v⟩ := head
    obtain ⟨hk, hr⟩ := List.pairwise_cons.1 h
    rw [place]
    split
    · rename_i hlt
      refine List.pairwise_cons.2 ⟨fun e he => ?_, h⟩
      rcases List.mem_cons.1 he with rfl | he
      · exact hlt
      · exact Std.lt_trans hlt (hk e he)
    · split
      · rename_i heq
        exact List.pairwise_cons.2 ⟨fun e he => heq ▸ hk e he, hr⟩
      · rename_i hnlt hne
        refine List.pairwise_cons.2 ⟨fun e he => ?_, ih hr⟩
        rcases mem_place he with rfl | he
        · exact Std.lt_of_le_of_ne (Std.not_lt.1 hnlt) (Ne.symm hne)
        · exact hk e he

/-- The table without entries. -/
def empty : Table α := ⟨[], .nil⟩

instance : Inhabited (Table α) := ⟨empty⟩

instance [DecidableEq α] : DecidableEq (Table α) := fun s t =>
  decidable_of_iff (s.entries = t.entries) ⟨Table.ext, fun h => h ▸ rfl⟩

/-- Gives `key` the value `value`, in place of the one it had. -/
def insert (t : Table α) (key : String) (value : α) : Table α :=
  ⟨place key value t.entries, pairwise_place key value t.increasing⟩

/-- Inserts entries from left to right, so that of equal keys the last one stays. -/
def insertAll (t : Table α) (entries : List (String × α)) : Table α :=
  entries.foldl (fun t e => t.insert e.1 e.2) t

/-- The table of a list of entries, in which of equal keys the last one stays. -/
def ofList (entries : List (String × α)) : Table α := empty.insertAll entries

/-- The value of a key. -/
def get? (t : Table α) (key : String) : Option α := t.entries.lookup key

/-- Whether the key has a value. -/
def contains (t : Table α) (key : String) : Bool := (t.get? key).isSome

/-- The keys, in increasing order. -/
def keys (t : Table α) : List String := t.entries.map Prod.fst

/-- The number of entries. -/
def size (t : Table α) : Nat := t.entries.length

/-- Everything in `t`, overridden by everything in `s`. -/
def override (t s : Table α) : Table α := t.insertAll s.entries

/-! ### Looking up after writing -/

theorem lookup_cons_eq (k key : String) (value : α) (l : List (String × α)) :
    ((key, value) :: l).lookup k = if k = key then some value else l.lookup k := by
  rw [List.lookup_cons]
  by_cases h : k = key
  · simp [h]
  · simp [beq_eq_false_iff_ne.2 h, h]

theorem lookup_place (key : String) (value : α) (k : String) (l : List (String × α)) :
    (place key value l).lookup k = if k = key then some value else l.lookup k := by
  induction l with
  | nil => exact lookup_cons_eq k key value []
  | cons head rest ih =>
    obtain ⟨a, v⟩ := head
    rw [place]
    split
    · exact lookup_cons_eq k key value _
    · split
      · rename_i heq
        subst heq
        simp only [lookup_cons_eq]
        split <;> rfl
      · rename_i hne
        simp only [lookup_cons_eq, ih]
        by_cases h : k = key
        · subst h
          simp [hne]
        · simp [h]

@[simp] theorem get?_empty (key : String) : (empty : Table α).get? key = none := rfl

/-- After an insertion the key has the new value and every other key keeps its own. -/
theorem get?_insert (t : Table α) (key : String) (value : α) (k : String) :
    (t.insert key value).get? k = if k = key then some value else t.get? k :=
  lookup_place key value k t.entries

theorem mem_keys {t : Table α} {key : String} : key ∈ t.keys ↔ (t.get? key).isSome := by
  simp [keys, get?, List.lookup_isSome_iff]

/-! ### Equality -/

theorem mem_iff_lookup {κ : Type} [BEq κ] [LawfulBEq κ] {l : List (κ × α)}
    (h : (l.map Prod.fst).Nodup) {e : κ × α} : e ∈ l ↔ l.lookup e.1 = some e.2 := by
  constructor
  · intro he
    obtain ⟨l₁, l₂, rfl⟩ := List.append_of_mem he
    rw [List.map_append, List.map_cons, List.nodup_append] at h
    refine List.lookup_eq_some_iff.2 ⟨l₁, l₂, rfl, fun a ha => ?_⟩
    simpa using (h.2.2 a.1 (List.mem_map_of_mem ha) e.1 List.mem_cons_self).symm
  · intro hl
    obtain ⟨l₁, l₂, rfl, -⟩ := List.lookup_eq_some_iff.1 hl
    simp

theorem nodup_keys (t : Table α) : (t.entries.map Prod.fst).Nodup := by
  refine List.pairwise_map.2 (t.increasing.imp fun {a b} h heq => ?_)
  rw [heq] at h
  exact absurd h Std.lt_irrefl

theorem mem_entries {t : Table α} {e : String × α} : e ∈ t.entries ↔ t.get? e.1 = some e.2 :=
  mem_iff_lookup t.nodup_keys

theorem entries_eq_of_mem_iff {l₁ l₂ : List (String × α)}
    (h₁ : l₁.Pairwise (fun a b => a.1 < b.1)) (h₂ : l₂.Pairwise (fun a b => a.1 < b.1))
    (h : ∀ e, e ∈ l₁ ↔ e ∈ l₂) : l₁ = l₂ := by
  induction l₁ generalizing l₂ with
  | nil =>
    cases l₂ with
    | nil => rfl
    | cons b r₂ => exact absurd ((h b).2 List.mem_cons_self) List.not_mem_nil
  | cons a r₁ ih =>
    cases l₂ with
    | nil => exact absurd ((h a).1 List.mem_cons_self) List.not_mem_nil
    | cons b r₂ =>
      obtain ⟨ha, hr₁⟩ := List.pairwise_cons.1 h₁
      obtain ⟨hb, hr₂⟩ := List.pairwise_cons.1 h₂
      have hab : a = b := by
        rcases List.mem_cons.1 ((h a).1 List.mem_cons_self) with e | hmem
        · exact e
        · rcases List.mem_cons.1 ((h b).2 List.mem_cons_self) with e | hmem'
          · exact e.symm
          · exact absurd (Std.lt_trans (hb a hmem) (ha b hmem')) Std.lt_irrefl
      subst hab
      rw [ih hr₁ hr₂ fun e => ⟨fun he => ?_, fun he => ?_⟩]
      · rcases List.mem_cons.1 ((h e).1 (List.mem_cons_of_mem _ he)) with rfl | h'
        · exact absurd (ha e he) Std.lt_irrefl
        · exact h'
      · rcases List.mem_cons.1 ((h e).2 (List.mem_cons_of_mem _ he)) with rfl | h'
        · exact absurd (hb e he) Std.lt_irrefl
        · exact h'

/-- A table is its look-up function. -/
theorem ext_get? {s t : Table α} (h : ∀ key, s.get? key = t.get? key) : s = t :=
  Table.ext <| entries_eq_of_mem_iff s.increasing t.increasing fun e => by
    rw [mem_entries, mem_entries, h]

/-! ### Writing several entries -/

/-- Of equal keys the last one stays. -/
theorem get?_insertAll (t : Table α) (es : List (String × α)) (k : String) :
    (t.insertAll es).get? k = (es.reverse.lookup k).or (t.get? k) := by
  unfold insertAll
  induction es generalizing t with
  | nil => rfl
  | cons e es ih =>
    rw [List.foldl_cons, ih, get?_insert, List.reverse_cons, List.lookup_append, lookup_cons_eq]
    cases es.reverse.lookup k with
    | none => split <;> rfl
    | some v => rfl

theorem lookup_eq_of_perm {l m : List (String × α)} (h : l.Perm m)
    (hnodup : (l.map Prod.fst).Nodup) (k : String) : l.lookup k = m.lookup k := by
  induction h with
  | nil => rfl
  | cons e _ ih =>
    rw [lookup_cons_eq k e.1 e.2, lookup_cons_eq k e.1 e.2, ih (List.nodup_cons.1 hnodup).2]
  | swap a b l =>
    have hne : b.1 ≠ a.1 := fun heq => (List.nodup_cons.1 hnodup).1 (heq ▸ List.mem_cons_self)
    simp only [lookup_cons_eq k _ _ _]
    by_cases hb : k = b.1
    · rw [if_pos hb, if_neg (hb ▸ hne), if_pos hb]
    · rw [if_neg hb, if_neg hb]
  | trans h _ ih ih' => rw [ih hnodup, ih' ((h.map Prod.fst).nodup_iff.1 hnodup)]

theorem ofList_of_perm {es : List (String × α)} {t : Table α} (h : es.Perm t.entries) :
    ofList es = t := by
  refine ext_get? fun k => ?_
  have hrev : t.entries.Perm es.reverse := h.symm.trans es.reverse_perm.symm
  rw [ofList, get?_insertAll, get?_empty, Option.or_none, get?, lookup_eq_of_perm hrev t.nodup_keys]

end Table

end Typeahead
