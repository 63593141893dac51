import Typeahead.Proofs.Lookup

/-! # Windows and delimiters

A search takes the last words of a text and then cuts them after one delimiter at a time, joining
and parting the words anew for each.  None of this shows: no delimiter is blank, so a cut acts on
the runs of a text alone (`runs_rtakeWhile`), and it does not matter whether the last runs are taken
before a cut or after it (`cutRuns_lastItems`).  The candidates are therefore the last words of what
follows the last delimiter of the whole text, in which the order of the delimiters has no part
(`Search.candidates_eq`). -/

namespace Typeahead

open Search (lastItems lastItems_of_length_le lastItems_append)

/-! ### The longest end of a list -/

section ends

variable {α : Type} {p : α → Bool}

theorem rtakeWhile_append_of_forall (xs : List α) {ys : List α} (h : ∀ y ∈ ys, p y) :
    (xs ++ ys).rtakeWhile p = xs.rtakeWhile p ++ ys := by
  unfold List.rtakeWhile
  rw [List.reverse_append, List.takeWhile_append_of_pos (by simpa using h), List.reverse_append,
    List.reverse_reverse]

theorem rtakeWhile_append_of_exists (xs : List α) {ys : List α} (h : ∃ y ∈ ys, ¬ p y) :
    (xs ++ ys).rtakeWhile p = ys.rtakeWhile p := by
  have hstop : (ys.reverse.takeWhile p).length ≠ ys.reverse.length := by
    intro hlength
    obtain ⟨y, hy, hp⟩ := h
    have hall := (List.takeWhile_prefix p).eq_of_length hlength
    rw [List.takeWhile_eq_self_iff] at hall
    exact hp (hall y (List.mem_reverse.mpr hy))
  unfold List.rtakeWhile
  rw [List.reverse_append, List.takeWhile_append, if_neg hstop]

end ends

/-! ### Cutting runs -/

/-- The runs that follow the last `sep`: the runs behind the last one in which it occurs, and before
them what is left of that one. -/
def cutRuns (sep : Char) : List (List Char) → List (List Char)
  | [] => []
  | run :: rest =>
    if sep ∈ rest.flatten then cutRuns sep rest else
      runsBetween isBlank (run.rtakeWhile (· ≠ sep)) ++ rest

section cutRuns

variable {sep : Char} {rs : List (List Char)}

theorem mem_flatten_runs (hsep : isBlank sep = false) (cs : List Char) :
    sep ∈ (runsBetween isBlank cs).flatten ↔ sep ∈ cs := by
  rw [flatten_runsBetween, List.mem_filter]
  simp [hsep]

theorem cutRuns_of_not_mem (hrs : ∀ r ∈ rs, r ≠ [] ∧ Solid r) (h : sep ∉ rs.flatten) :
    cutRuns sep rs = rs := by
  cases rs with
  | nil => rfl
  | cons run rest =>
      rw [List.flatten_cons, List.mem_append, not_or] at h
      have hrun : run.rtakeWhile (· ≠ sep) = run := by
        refine List.rtakeWhile_eq_self_iff.mpr fun c hc => ?_
        simpa using fun heq : c = sep => h.1 (heq ▸ hc)
      obtain ⟨⟨hne, hsolid⟩, -⟩ := List.forall_mem_cons.mp hrs
      rw [cutRuns, if_neg h.2, hrun, runsBetween_of_forall hne hsolid]
      rfl

theorem cutRuns_append_of_mem {xs : List Char} (hxs : Solid xs) (h : sep ∈ rs.flatten) :
    cutRuns sep (runsBetween isBlank xs ++ rs) = cutRuns sep rs := by
  by_cases hne : xs = []
  · simp [hne]
  · rw [runsBetween_of_forall hne hxs, List.singleton_append, cutRuns, if_pos h]

theorem cutRuns_append_of_not_mem {xs : List Char} (hxs : Solid xs)
    (hrs : ∀ r ∈ rs, r ≠ [] ∧ Solid r) (h : sep ∉ rs.flatten) :
    cutRuns sep (runsBetween isBlank xs ++ rs) =
      runsBetween isBlank (xs.rtakeWhile (· ≠ sep)) ++ rs := by
  by_cases hne : xs = []
  · simp [hne, cutRuns_of_not_mem hrs h]
  · rw [runsBetween_of_forall hne hxs, List.singleton_append, cutRuns, if_neg h]

/-- Cutting a text cuts its runs. -/
theorem runs_rtakeWhile (hsep : isBlank sep = false) (cs : List Char) :
    runsBetween isBlank (cs.rtakeWhile (· ≠ sep)) = cutRuns sep (runsBetween isBlank cs) := by
  induction cs using separator_induction (p := isBlank) with
  | solid cs hcs =>
      rw [← List.append_nil (runsBetween isBlank cs), cutRuns_append_of_not_mem hcs (by simp) (by simp),
        List.append_nil]
  | parted xs b ys hxs hb ih =>
      rw [runsBetween_append_cons hb]
      by_cases hmem : sep ∈ ys
      · -- The last `sep` stands behind the blank.
        rw [List.append_cons, rtakeWhile_append_of_exists _ ⟨sep, hmem, by simp⟩, ih,
          cutRuns_append_of_mem hxs ((mem_flatten_runs hsep ys).mpr hmem)]
      · have hb' : b ≠ sep := by
          rintro rfl
          rw [hb] at hsep
          cases hsep
        have hall : ∀ y ∈ b :: ys, decide (y ≠ sep) = true := by
          refine List.forall_mem_cons.mpr ⟨by simpa using hb', fun y hy => ?_⟩
          simpa using fun h : y = sep => hmem (h ▸ hy)
        rw [rtakeWhile_append_of_forall xs hall, runsBetween_append_cons hb,
          cutRuns_append_of_not_mem hxs (fun r hr => mem_runs hr)
            (fun h => hmem ((mem_flatten_runs hsep ys).mp h))]

theorem length_cutRuns_le (hrs : ∀ r ∈ rs, r ≠ [] ∧ Solid r) :
    (cutRuns sep rs).length ≤ rs.length := by
  induction rs with
  | nil => exact Nat.le_refl 0
  | cons run rest ih =>
      obtain ⟨⟨-, hsolid⟩, hrest⟩ := List.forall_mem_cons.mp hrs
      rw [cutRuns, List.length_cons]
      split_ifs
      · exact Nat.le_succ_of_le (ih hrest)
      · have hend : Solid (run.rtakeWhile (· ≠ sep)) := fun c hc =>
          hsolid c ((List.rtakeWhile_suffix _ run).subset hc)
        have hone := length_runsBetween_le_one hend
        rw [List.length_append]
        omega

/-- Taking the last runs and cutting them is cutting the runs and taking the last that are left. -/
theorem cutRuns_lastItems (n : ℕ) (hrs : ∀ r ∈ rs, r ≠ [] ∧ Solid r) :
    cutRuns sep (lastItems n rs) = lastItems n (cutRuns sep rs) := by
  induction rs with
  | nil => simp [lastItems, cutRuns]
  | cons run rest ih =>
      obtain ⟨-, hrest⟩ := List.forall_mem_cons.mp hrs
      rcases Nat.lt_or_ge rest.length n with hlt | hle
      · have hlength : (run :: rest).length ≤ n := hlt
        rw [lastItems_of_length_le hlength,
          lastItems_of_length_le (Nat.le_trans (length_cutRuns_le hrs) hlength)]
      · rw [Search.lastItems_cons run hle, ih hrest, cutRuns]
        split_ifs with hmem
        · rfl
        · rw [lastItems_append _ hle, cutRuns_of_not_mem hrest hmem]

end cutRuns

namespace Search

/-! ### Cutting words -/

theorem words_afterLast {c : Char} (hc : isBlank c = false) (text : String) :
    words (afterLast c text) = (cutRuns c (runsBetween isBlank text.toList)).map String.ofList := by
  rw [words_eq_runs, toList_afterLast, runs_rtakeWhile hc]

theorem cut_eq_cutRuns {c : Char} (hc : isBlank c = false) {ws : List String}
    (hws : ∀ w ∈ ws, IsWord w) : cut ws c = (cutRuns c (ws.map String.toList)).map String.ofList := by
  rw [cut, words_afterLast hc, runs_joinWords hws]

theorem cut_lastItems {c : Char} (hc : isBlank c = false) (n : ℕ) (text : String) :
    cut (lastItems n (words text)) c = lastItems n (words (afterLast c text)) := by
  have hmap : ∀ rs : List (List Char),
      lastItems n (rs.map String.ofList) = (lastItems n rs).map String.ofList := by
    intro rs
    simp [lastItems]
  have hwords : ∀ w ∈ lastItems n (words text), IsWord w :=
    fun w hw => isWord_of_mem_words (List.mem_of_mem_drop hw)
  rw [cut_eq_cutRuns hc hwords, words_afterLast hc, words_eq_runs, hmap, hmap, List.map_map,
    ← cutRuns_lastItems n fun r hr => mem_runs hr]
  simp

/-- What of a text follows the last occurrence of any of the delimiters: the longest end of the text
in which none of them occurs. -/
def afterDelimiters (delimiters : List Char) (text : String) : String :=
  .ofList (text.toList.rtakeWhile (· ∉ delimiters))

theorem afterDelimiters_nil (text : String) : afterDelimiters [] text = text := by
  unfold afterDelimiters
  rw [List.rtakeWhile_eq_self_iff.mpr (by simp), String.ofList_toList]

theorem afterDelimiters_cons (c : Char) (delimiters : List Char) (text : String) :
    afterDelimiters (c :: delimiters) text = afterDelimiters delimiters (afterLast c text) := by
  unfold afterDelimiters
  rw [toList_afterLast, List.rtakeWhile, List.rtakeWhile, List.rtakeWhile, List.reverse_reverse,
    List.takeWhile_takeWhile]
  simp [and_comm]

theorem afterDelimiters_congr {delimiters delimiters' : List Char}
    (h : ∀ c, c ∈ delimiters' ↔ c ∈ delimiters) (text : String) :
    afterDelimiters delimiters' text = afterDelimiters delimiters text := by
  unfold afterDelimiters
  simp only [h]

/-- What stands before it is nothing or ends with a delimiter. -/
theorem exists_append_afterDelimiters (delimiters : List Char) (text : String) :
    ∃ lead, text = lead ++ afterDelimiters delimiters text ∧
      (∀ c ∈ (afterDelimiters delimiters text).toList, c ∉ delimiters) ∧
      (lead = "" ∨ ∃ c ∈ delimiters, lead.toList.getLast? = some c) := by
  refine ⟨.ofList (text.toList.rdropWhile (· ∉ delimiters)), ?_, ?_, ?_⟩
  · unfold afterDelimiters
    rw [← String.ofList_append, List.rdropWhile_append_rtakeWhile, String.ofList_toList]
  · intro c hc
    rw [afterDelimiters, String.toList_ofList] at hc
    simpa using List.mem_rtakeWhile_imp hc
  · by_cases hnil : text.toList.rdropWhile (· ∉ delimiters) = []
    · exact .inl (by rw [hnil])
    · right
      have hlast := List.rdropWhile_last_not (· ∉ delimiters) text.toList hnil
      refine ⟨(text.toList.rdropWhile (· ∉ delimiters)).getLast hnil, by simpa using hlast, ?_⟩
      rw [String.toList_ofList, List.getLast?_eq_some_getLast hnil]

/-- Cutting after one delimiter at a time is cutting after the last of all. -/
theorem foldl_cut {delimiters : List Char} (h : ∀ c ∈ delimiters, isBlank c = false) (n : ℕ)
    (text : String) :
    delimiters.foldl cut (lastItems n (words text)) =
      lastItems n (words (afterDelimiters delimiters text)) := by
  induction delimiters generalizing text with
  | nil => rw [afterDelimiters_nil, List.foldl_nil]
  | cons c delimiters ih =>
      obtain ⟨hc, hdelimiters⟩ := List.forall_mem_cons.mp h
      rw [List.foldl_cons, cut_lastItems hc, ih hdelimiters, afterDelimiters_cons]

theorem candidates_eq (s : Search) (text : String) :
    s.candidates text = lastItems s.window (words (afterDelimiters s.delimiters text)) :=
  foldl_cut s.delimiters_solid s.window text

theorem exists_withDelimiters (s : Search) {delimiters : List Char}
    (h : ∀ c ∈ delimiters, isBlank c = false) :
    ∃ t, s.withDelimiters delimiters = .ok t ∧ t.mode = s.mode ∧ t.window = s.window ∧
      t.maxResults = s.maxResults ∧ t.delimiters = delimiters := by
  unfold withDelimiters
  split
  · rename_i c hc
    have hblank := List.find?_some hc
    rw [h c (List.mem_of_find?_eq_some hc)] at hblank
    cases hblank
  · exact ⟨_, rfl, rfl, rfl, rfl, rfl⟩

end Search

namespace Dictionary

variable {s t : Search}

theorem suggestFrom_congr (d : Dictionary) (hmode : t.mode = s.mode)
    (hmax : t.maxResults = s.maxResults) (ws : List String) :
    d.suggestFrom t ws = d.suggestFrom s ws := by
  have hcompletions : completions t = completions s := by
    funext g
    rw [completions, completions, hmode, hmax]
  induction ws with
  | nil => rfl
  | cons w ws ih => rw [suggestFrom, suggestFrom, ih, hcompletions]

end Dictionary

/-- **Windows and delimiters.**  The words that may form a key are the last words, as many as the
window has, of what follows the last occurrence of any of the delimiters in the whole text, and of
the whole text if none of them occurs.  So a search finds the same, and takes the same words from
the stream, if its delimiters are put in another order or repeated. -/
theorem Search.candidates_eq_last_words (s : Search) (text : String) :
    s.candidates text = lastItems s.window (words (afterDelimiters s.delimiters text)) ∧
      (∃ lead, text = lead ++ afterDelimiters s.delimiters text ∧
        (∀ c ∈ (afterDelimiters s.delimiters text).toList, c ∉ s.delimiters) ∧
        (lead = "" ∨ ∃ c ∈ s.delimiters, lead.toList.getLast? = some c)) ∧
      ∀ delimiters, (∀ c, c ∈ delimiters ↔ c ∈ s.delimiters) →
        ∃ t, s.withDelimiters delimiters = .ok t ∧ t.delimiters = delimiters ∧
          ∀ d : Dictionary, d.suggest t text = d.suggest s text := by
  refine ⟨candidates_eq s text, exists_append_afterDelimiters s.delimiters text, ?_⟩
  intro delimiters hsame
  have hsolid : ∀ c ∈ delimiters, isBlank c = false :=
    fun c hc => s.delimiters_solid c ((hsame c).mp hc)
  obtain ⟨t, ht, hmode, hwindow, hmax, hdelimiters⟩ := s.exists_withDelimiters hsolid
  refine ⟨t, ht, hdelimiters, ?_⟩
  intro d
  have hcandidates : t.candidates text = s.candidates text := by
    rw [candidates_eq, candidates_eq, hwindow, hdelimiters, afterDelimiters_congr hsame]
  rw [Dictionary.suggest, Dictionary.suggest, hcandidates, d.suggestFrom_congr hmode hmax]

/-- The full stop stands inside the second of four words, and the comma that ends the third is given
twice. -/
theorem Search.candidates_eq_last_words_like :
    let s := Search.new .all
    let text := "I am.so, we\tlike"
    (∀ c, c ∈ [',', '.', ','] ↔ c ∈ s.delimiters) ∧ s.candidates text = ["we", "like"] ∧
      ∃ t, s.withDelimiters [',', '.', ','] = .ok t ∧ t.delimiters = [',', '.', ','] ∧
        ∀ d : Dictionary, d.suggest t text = d.suggest s text := by
  intro s text
  have hsame : ∀ c, c ∈ [',', '.', ','] ↔ c ∈ s.delimiters := by
    intro c
    show c ∈ [',', '.', ','] ↔ c ∈ ['.', ',']
    simp only [List.mem_cons, List.not_mem_nil, or_false]
    tauto
  obtain ⟨hcandidates, -, hreorder⟩ := Search.candidates_eq_last_words s text
  refine ⟨hsame, ?_, hreorder _ hsame⟩
  rw [hcandidates]
  decide +kernel

end Typeahead
