import Mathlib.Data.List.Nodup
import Mathlib.Data.List.Perm.Basic
import Typeahead.Dictionary
import Typeahead.Proofs.Fields
import Typeahead.Proofs.Reading

/-! # Compiling on several processors

Cutting entries into chunks, compiling the chunks apart and gathering their reports as they arrive
is compiling all entries one after the other, only that the chunks may come in another order
(`gather_map_report`).  The keys of an object are distinct, so the order of its entries does not
show in what is compiled (`Compiles.ofJson_eq_ok`); where entries do not compile, it decides which
of them is reported, and nothing else (`Compiles.ofJson_eq_error`).  Together they say what is
gathered from the chunks of an object, and that these are few and not empty. -/

namespace Typeahead
namespace Dictionary

variable {α : Type}

/-! ### Chunks -/

theorem chunks_cons (n : ℕ) (a : α) (l : List α) :
    chunks n (a :: l) = (a :: l.take (n - 1)) :: chunks n (l.drop (n - 1)) := by
  rw [chunks]

/-- Nothing is lost, and nothing is compiled twice. -/
theorem flatten_chunks (n : ℕ) : ∀ l : List α, (chunks n l).flatten = l
  | [] => by rw [chunks, List.flatten_nil]
  | a :: l => by
      rw [chunks_cons, List.flatten_cons, flatten_chunks n (l.drop (n - 1)), List.cons_append,
        List.take_append_drop]
termination_by l => l.length
decreasing_by simp only [List.length_drop, List.length_cons]; omega

theorem chunks_ne_nil (n : ℕ) : ∀ l : List α, ∀ chunk ∈ chunks n l, chunk ≠ []
  | [], chunk, h => by
      rw [chunks] at h
      cases h
  | a :: l, chunk, h => by
      rw [chunks_cons] at h
      rcases List.mem_cons.mp h with rfl | h
      · exact List.cons_ne_nil _ _
      · exact chunks_ne_nil n (l.drop (n - 1)) chunk h
termination_by l => l.length
decreasing_by simp only [List.length_drop, List.length_cons]; omega

theorem length_chunks_le {n : ℕ} (hn : 0 < n) : ∀ (m : ℕ) {l : List α}, l.length ≤ m * n →
    (chunks n l).length ≤ m
  | m, [], _ => by
      rw [chunks]
      exact Nat.zero_le m
  | 0, a :: l, h => by simp at h
  | m + 1, a :: l, h => by
      rw [chunks_cons, List.length_cons]
      rw [List.length_cons, Nat.succ_mul] at h
      refine Nat.succ_le_succ (length_chunks_le hn m ?_)
      rw [List.length_drop]
      omega

/-- There are at most eight chunks for each processor. -/
theorem length_chunks_chunkLength_le {processors : ℕ} (h : 0 < processors) (l : List α) :
    (chunks (chunkLength processors l.length) l).length ≤ 8 * processors := by
  have hdiv := Nat.div_add_mod (l.length + 8 * processors - 1) (8 * processors)
  have hmod := Nat.mod_lt (l.length + 8 * processors - 1) (Nat.mul_pos (by decide : 0 < 8) h)
  rw [show (l.length + 8 * processors - 1) / (8 * processors) =
    chunkLength processors l.length from rfl] at hdiv
  by_cases hnil : l = []
  · rw [hnil, chunks]
    exact Nat.zero_le _
  · have hlength : l.length ≤ 8 * processors * chunkLength processors l.length := by omega
    refine length_chunks_le (Nat.pos_of_ne_zero ?_) (8 * processors) hlength
    intro hzero
    rw [hzero, Nat.mul_zero] at hlength
    exact hnil (List.eq_nil_of_length_eq_zero (Nat.le_zero.mp hlength))

/-! ### Gathering -/

/-- Compiles entries one after the other. -/
def compileEntries (entries : List (String × Json)) : Except DictionaryError Dictionary :=
  (fun compiled => ⟨.ofList compiled, []⟩) <$> entries.mapM compileEntry

theorem foldlM_insertAll (arrivals : List Report) (t : Table (Grammar String)) :
    arrivals.foldlM (fun t r => return t.insertAll (← r)) t =
      (fun lists => t.insertAll lists.flatten) <$> arrivals.mapM id := by
  induction arrivals generalizing t with
  | nil => rfl
  | cons r arrivals ih =>
      rw [List.foldlM_cons, List.mapM_cons]
      cases r with
      | error error => rfl
      | ok list =>
          show arrivals.foldlM _ (t.insertAll list) = _
          rw [ih]
          cases arrivals.mapM id with
          | error error => rfl
          | ok lists => exact congrArg Except.ok (Table.insertAll_append t list lists.flatten).symm

/-- Gathering reports is compiling the entries of the chunks in the order of the reports. -/
theorem gather_map_report (cs : List (List (String × Json))) :
    gather (cs.map report) = compileEntries cs.flatten := by
  unfold gather compileEntries
  rw [foldlM_insertAll, List.mapM_map, Function.id_comp, mapM_flatten]
  show _ = _ <$> List.flatten <$> cs.mapM report
  cases cs.mapM report with
  | error error => rfl
  | ok lists => rfl

/-- In whatever order the reports arrive, it is as if the entries had been compiled in some
order. -/
theorem exists_perm_of_arrivals {processors : ℕ} {fields : List (String × Json)}
    {arrivals : List Report} (h : arrivals.Perm (reports processors fields)) :
    ∃ entries : List (String × Json), entries.Perm fields ∧
      gather arrivals = compileEntries entries := by
  -- The reports in another order are those on the chunks in another order.
  have hcomp : Relation.Comp (· = List.map report ·) List.Perm arrivals
      (chunks (chunkLength processors fields.length) fields) := by
    rw [List.eq_map_comp_perm]
    exact h
  obtain ⟨cs, rfl, hperm⟩ := hcomp
  refine ⟨cs.flatten, ?_, gather_map_report cs⟩
  have hflatten := hperm.flatten
  rw [flatten_chunks] at hflatten
  exact hflatten

theorem ofJson_object (fields : List (String × Json)) :
    ofJson (.object fields) = compileEntries fields := by
  rw [ofJson, reports, gather_map_report, flatten_chunks]

/-! ### The order of entries -/

section order

variable {entries fields : List (String × Json)} {d : Dictionary}

theorem compileEntry_eq_ok_iff {entry : String × Json} {compiled : String × Grammar String} :
    compileEntry entry = .ok compiled ↔
      compiled.1 = entry.1 ∧ Grammar.ofJson entry.2 = .ok compiled.2 := by
  unfold compileEntry
  obtain ⟨key, g⟩ := compiled
  cases Grammar.ofJson entry.2 with
  | error error => simp
  | ok g' => simp [eq_comm]

theorem compileEntry_eq_error_iff {entry : String × Json} {error : DictionaryError} :
    compileEntry entry = .error error ↔
      ∃ e, Grammar.ofJson entry.2 = .error e ∧ error = .entry entry.1 e := by
  unfold compileEntry
  cases Grammar.ofJson entry.2 with
  | error e => simp [eq_comm]
  | ok g => simp

theorem keys_of_mapM_compileEntry {compiled : List (String × Grammar String)}
    (h : entries.mapM compileEntry = .ok compiled) :
    compiled.map Prod.fst = entries.map Prod.fst := by
  have hforall := mapM_eq_ok_iff.mp h
  clear h
  induction hforall with
  | nil => rfl
  | cons hentry _ ih => rw [List.map_cons, List.map_cons, ih, (compileEntry_eq_ok_iff.mp hentry).1]

theorem compileEntries_of_perm (h : entries.Perm fields) (hnodup : (fields.map Prod.fst).Nodup)
    (hfields : compileEntries fields = .ok d) : compileEntries entries = .ok d := by
  obtain ⟨compiled, hcompiled, rfl⟩ := map_eq_ok_iff.mp hfields
  obtain ⟨compiled', hcompiled', hperm⟩ := exists_mapM_of_perm h hcompiled
  have hkeys := keys_of_mapM_compileEntry hcompiled
  refine map_eq_ok_iff.mpr ⟨compiled', hcompiled', ?_⟩
  rw [Table.ofList_eq_of_perm hperm (hkeys ▸ hnodup)]

theorem exists_of_compileEntries_eq_error {error : DictionaryError}
    (h : compileEntries entries = .error error) :
    ∃ entry ∈ entries, ∃ e, Grammar.ofJson entry.2 = .error e ∧ error = .entry entry.1 e := by
  have hmapM : entries.mapM compileEntry = .error error := by
    unfold compileEntries at h
    cases hmapM : entries.mapM compileEntry with
    | error error' =>
        rw [hmapM] at h
        cases h
        rfl
    | ok compiled =>
        rw [hmapM] at h
        cases h
  obtain ⟨entry, hmem, hentry⟩ := exists_of_mapM_eq_error hmapM
  exact ⟨entry, hmem, compileEntry_eq_error_iff.mp hentry⟩

end order

/-! ### Outcomes -/

/-- The outcomes of compiling a value: on any number of processors, and with the reports arriving in
any order. -/
inductive Compiles : Json → Except DictionaryError Dictionary → Prop
  | notObject {value : Json} (h : value.kind ≠ .object) : Compiles value (.error .notObject)
  | object {fields : List (String × Json)} {processors : ℕ} {arrivals : List Report}
      (hprocessors : 0 < processors) (harrivals : arrivals.Perm (reports processors fields)) :
      Compiles (.object fields) (gather arrivals)

/-- An entry of the value that does not compile, and its error. -/
def Broken (value : Json) (key : String) (error : GrammarError) : Prop :=
  ∃ fields entry, value = .object fields ∧ (key, entry) ∈ fields ∧
    Grammar.ofJson entry = .error error

theorem compiles_ofJson (value : Json) : Compiles value (ofJson value) := by
  cases value with
  | object fields => exact .object Nat.one_pos (.refl _)
  | _ => exact .notObject (by simp [Json.kind])

theorem ofJson_of_notObject {value : Json} (h : value.kind ≠ .object) :
    ofJson value = .error .notObject := by
  cases value with
  | object fields => exact absurd rfl h
  | _ => rfl

theorem nodup_of_ordered {fields : List (String × Json)} (h : Json.Ordered (.object fields)) :
    (fields.map Prod.fst).Nodup := by
  cases h with
  | object hkeys => exact Table.nodup_keys ⟨fields, hkeys⟩

section compiles

variable {value : Json} {d : Dictionary} {error : DictionaryError}

/-- What is compiled is the same on any number of processors and in any order. -/
theorem Compiles.ofJson_eq_ok (h : Compiles value (.ok d)) (hvalue : value.Ordered) :
    ofJson value = .ok d := by
  generalize hr : Except.ok d = r at h
  cases h with
  | notObject => cases hr
  | object _ harrivals =>
      obtain ⟨entries, hperm, hgather⟩ := exists_perm_of_arrivals harrivals
      have hkeys := (hperm.map Prod.fst).nodup_iff.mpr (nodup_of_ordered hvalue)
      rw [hgather] at hr ⊢
      rw [ofJson_object, ← hr]
      exact compileEntries_of_perm hperm.symm hkeys hr.symm

/-- If a value does not compile, then it never does, and the error is the only one that is possible
or that of an entry. -/
theorem Compiles.ofJson_eq_error (h : Compiles value (.error error)) (hvalue : value.Ordered) :
    ofJson value = .error error ∨
      ∃ key e key' e', error = .entry key e ∧ Broken value key e ∧
        ofJson value = .error (.entry key' e') := by
  generalize hr : Except.error error = r at h
  cases h with
  | notObject hkind =>
      cases hr
      exact .inl (ofJson_of_notObject hkind)
  | @object fields _ _ _ harrivals =>
      right
      obtain ⟨entries, hperm, hgather⟩ := exists_perm_of_arrivals harrivals
      rw [hgather] at hr
      obtain ⟨⟨key, entry⟩, hentry, e, he, rfl⟩ := exists_of_compileEntries_eq_error hr.symm
      have hbroken : Broken (.object fields) key e :=
        ⟨fields, entry, rfl, hperm.mem_iff.mp hentry, he⟩
      rw [ofJson_object]
      cases hfields : compileEntries fields with
      | ok d =>
          -- In this order every entry compiles, and then they do in the order of the reports.
          rw [compileEntries_of_perm hperm (nodup_of_ordered hvalue) hfields] at hr
          cases hr
      | error error' =>
          obtain ⟨⟨key', _⟩, -, e', -, rfl⟩ := exists_of_compileEntries_eq_error hfields
          exact ⟨key, e, key', e', rfl, hbroken, rfl⟩

end compiles

/-! ### What is gathered -/

section gathered

variable {fields : List (String × Json)} {d : Dictionary}

theorem names_of_compileEntries (h : compileEntries fields = .ok d) : d.names = [] := by
  obtain ⟨compiled, -, rfl⟩ := map_eq_ok_iff.mp h
  rfl

theorem keys_of_compileEntries (hkeys : (fields.map Prod.fst).Nodup)
    (h : compileEntries fields = .ok d) : d.entries.keys.Perm (fields.map Prod.fst) := by
  obtain ⟨compiled, hcompiled, rfl⟩ := map_eq_ok_iff.mp h
  refine (List.perm_ext_iff_of_nodup (Table.nodup_keys _) hkeys).mpr fun key => ?_
  rw [← Table.keys, Table.mem_keys, Table.isSome_get?_ofList, keys_of_mapM_compileEntry hcompiled]

/-- The grammar of a key is what the field with this key compiles to. -/
theorem get?_of_compileEntries (hkeys : (fields.map Prod.fst).Nodup)
    (h : compileEntries fields = .ok d) (key : String) (g : Grammar String) :
    d.get? key = some g ↔ ∃ value, (key, value) ∈ fields ∧ Grammar.ofJson value = .ok g := by
  obtain ⟨compiled, hcompiled, rfl⟩ := map_eq_ok_iff.mp h
  have hfound : ∀ {g}, (Table.ofList compiled).get? key = some g →
      ∃ value, (key, value) ∈ fields ∧ Grammar.ofJson value = .ok g := by
    intro g hg
    obtain ⟨⟨key', value⟩, hfield, hentry⟩ :=
      exists_of_mem_mapM hcompiled (Table.mem_of_get?_ofList hg)
    obtain ⟨rfl, hvalue⟩ := compileEntry_eq_ok_iff.mp hentry
    exact ⟨value, hfield, hvalue⟩
  constructor
  · exact hfound
  · rintro ⟨value, hfield, hvalue⟩
    have hkey : key ∈ compiled.map Prod.fst := by
      rw [keys_of_mapM_compileEntry hcompiled]
      exact List.mem_map_of_mem hfield
    obtain ⟨g', hg'⟩ := Option.isSome_iff_exists.mp (Table.isSome_get?_ofList.mpr hkey)
    -- No other field has this key.
    obtain ⟨value', hfield', hvalue'⟩ := hfound hg'
    obtain ⟨-, rfl⟩ := Prod.mk.inj (List.inj_on_of_nodup_map hkeys hfield hfield' rfl)
    obtain rfl := Except.ok.inj (hvalue.symm.trans hvalue')
    exact hg'

theorem exists_compileEntries_iff :
    (∃ d, compileEntries fields = .ok d) ↔
      ∀ entry ∈ fields, ∃ g, Grammar.ofJson entry.2 = .ok g := by
  have hentries : (∀ entry ∈ fields, ∃ compiled, compileEntry entry = .ok compiled) ↔
      ∀ entry ∈ fields, ∃ g, Grammar.ofJson entry.2 = .ok g := by
    simp only [compileEntry_eq_ok_iff, Prod.exists, exists_and_left, exists_eq_left]
  rw [← hentries, ← exists_mapM_eq_ok_iff]
  simp [compileEntries, map_eq_ok_iff]

end gathered

/-- **Compiling on several processors.**  The fields of an object are cut into at most eight chunks
for each processor, none of them empty, which together are the fields.  If every field compiles,
then on any number of processors and with the reports arriving in any order the same dictionary is
gathered as when they arrive in the order of the fields: it has no names, its keys are those of the
object, and the grammar of each key is what the field with this key compiles to.  Otherwise the
error that is gathered names a key of the object whose own field fails to compile with just this
error. -/
theorem gather_of_arrivals {fields : List (String × Json)}
    (hkeys : (fields.map Prod.fst).Nodup) :
    (∀ processors, 0 < processors →
        let cs := chunks (chunkLength processors fields.length) fields
        reports processors fields = cs.map report ∧ cs.flatten = fields ∧
          (∀ c ∈ cs, c ≠ []) ∧ cs.length ≤ 8 * processors) ∧
      ((∀ entry ∈ fields, ∃ g, Grammar.ofJson entry.2 = .ok g) →
        ∃ d : Dictionary, ofJson (.object fields) = .ok d ∧ d.names = [] ∧
          d.entries.keys.Perm (fields.map Prod.fst) ∧
          (∀ key g, d.get? key = some g ↔
            ∃ value, (key, value) ∈ fields ∧ Grammar.ofJson value = .ok g) ∧
          ∀ processors arrivals, arrivals.Perm (reports processors fields) →
            gather arrivals = .ok d) ∧
      ((∃ entry ∈ fields, ∃ error, Grammar.ofJson entry.2 = .error error) →
        ∀ processors arrivals, arrivals.Perm (reports processors fields) →
          ∃ key value error, (key, value) ∈ fields ∧ Grammar.ofJson value = .error error ∧
            gather arrivals = .error (.entry key error)) := by
  refine ⟨?_, ?_, ?_⟩
  · intro processors hprocessors cs
    exact ⟨rfl, flatten_chunks _ fields, chunks_ne_nil _ fields,
      length_chunks_chunkLength_le hprocessors fields⟩
  · intro hcompile
    obtain ⟨d, hd⟩ := exists_compileEntries_iff.mpr hcompile
    refine ⟨d, (ofJson_object fields).trans hd, names_of_compileEntries hd,
      keys_of_compileEntries hkeys hd, get?_of_compileEntries hkeys hd, ?_⟩
    intro processors arrivals harrivals
    obtain ⟨entries, hperm, hgather⟩ := exists_perm_of_arrivals harrivals
    rw [hgather]
    exact compileEntries_of_perm hperm hkeys hd
  · rintro ⟨entry, hentry, error, herror⟩ processors arrivals harrivals
    obtain ⟨entries, hperm, hgather⟩ := exists_perm_of_arrivals harrivals
    cases hcompiled : compileEntries entries with
    | ok d =>
        obtain ⟨g, hg⟩ :=
          exists_compileEntries_iff.mp ⟨d, hcompiled⟩ entry (hperm.mem_iff.mpr hentry)
        rw [herror] at hg
        cases hg
    | error e =>
        obtain ⟨⟨key, value⟩, hmem, error, hvalue, rfl⟩ :=
          exists_of_compileEntries_eq_error hcompiled
        exact ⟨key, value, error, hperm.mem_iff.mp hmem, hvalue, hgather.trans hcompiled⟩

/-- Nine fields make five chunks on one processor and nine on two, and the same dictionary also with
the last report first.  Of three fields two are broken. -/
theorem gather_of_arrivals_reversed :
    let whole : List (String × Json) := (List.range 9).map fun n => (toString n, .text "x")
    let broken : List (String × Json) := [("a", .null), ("b", .text "x"), ("c", .number "1")]
    (whole.map Prod.fst).Nodup ∧ (broken.map Prod.fst).Nodup ∧
      (reports 1 whole).length = 5 ∧ (reports 2 whole).length = 9 ∧
      (∃ d, gather (reports 1 whole).reverse = .ok d ∧ gather (reports 2 whole).reverse = .ok d) ∧
      ∃ key value error, (key, value) ∈ broken ∧ Grammar.ofJson value = .error error ∧
        gather (reports 1 broken).reverse = .error (.entry key error) := by
  intro whole broken
  have hwhole : (whole.map Prod.fst).Nodup := by decide +kernel
  have hbroken : (broken.map Prod.fst).Nodup := by decide +kernel
  have hcompile : ∀ entry ∈ whole, ∃ g, Grammar.ofJson entry.2 = .ok g := by
    intro entry hentry
    obtain ⟨n, -, rfl⟩ := List.mem_map.mp hentry
    exact ⟨_, rfl⟩
  have hfails : ∃ entry ∈ broken, ∃ error, Grammar.ofJson entry.2 = .error error :=
    ⟨("a", .null), List.mem_cons_self, _, rfl⟩
  obtain ⟨d, -, -, -, -, hgather⟩ := (gather_of_arrivals hwhole).2.1 hcompile
  refine ⟨hwhole, hbroken, by decide +kernel, by decide +kernel, ⟨d, ?_, ?_⟩, ?_⟩
  · exact hgather 1 _ (List.reverse_perm _)
  · exact hgather 2 _ (List.reverse_perm _)
  · exact (gather_of_arrivals hbroken).2.2 hfails 1 _ (List.reverse_perm _)

end Dictionary
end Typeahead
