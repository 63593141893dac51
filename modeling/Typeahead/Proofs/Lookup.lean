import Typeahead.Dictionary.Suggest
import Typeahead.Proofs.Enumeration
import Typeahead.Proofs.Pieces
import Typeahead.Proofs.Words

/-! # Looking up a suggestion

`Dictionary.Finds` says what a search that lists completions finds, without following the loop of
the search: among the last `k` candidate words, for `k` from all of them down to one, the first `k`
whose key is not passed over decides (`Skips`, `Stops`).  Each step of a search passes its key over
or ends at it (`suggestFrom_step`), so that a search finds exactly that (`suggestFrom_finds`).  The
candidates are never more words than the window has (`Search.length_candidates_le`), and so neither
are the words that are matched. -/

namespace Typeahead

theorem Draws.bind_of_eq {α β : Type} {x : StateM Draws α} {f : α → StateM Draws β}
    {draws draws' : Draws} {a : α} (h : x draws = (a, draws')) : (x >>= f) draws = f a draws' := by
  show f (x draws).1 (x draws).2 = f a draws'
  rw [h]

/-! ### Settings -/

/-- A change of one setting of a search. -/
inductive Setting where
  | mode (mode : Mode)
  | window (window : ℕ)
  | maxResults (maxResults : Option ℕ)
  | delimiters (delimiters : List Char)

namespace Search

/-- The search with one setting changed, or why the change is refused. -/
def set (s : Search) : Setting → Except SearchError Search
  | .mode mode => .ok (s.withMode mode)
  | .window window => s.withWindow window
  | .maxResults maxResults => s.withMaxResults maxResults
  | .delimiters delimiters => s.withDelimiters delimiters

/-- The search after several changes, of which those that are refused change nothing. -/
def settle (s : Search) (settings : List Setting) : Search :=
  settings.foldl (fun s setting => (s.set setting).toOption.getD s) s

/-! ### Candidates -/

theorem toList_afterLast (c : Char) (text : String) :
    (afterLast c text).toList = text.toList.rtakeWhile (· ≠ c) := by
  rw [afterLast, String.toList_ofList, getLast?_splitOn]
  rfl

theorem afterLast_suffix (c : Char) (text : String) :
    (afterLast c text).toList <:+ text.toList := by
  rw [toList_afterLast]
  exact List.rtakeWhile_suffix _ _

theorem length_cut_le {ws : List String} (h : ∀ w ∈ ws, IsWord w) (c : Char) :
    (cut ws c).length ≤ ws.length := by
  have hle := length_words_le_of_suffix (afterLast_suffix c (joinWords ws))
  rwa [words_joinWords h] at hle

theorem length_foldl_cut_le {delimiters : List Char} {ws : List String}
    (h : ∀ w ∈ ws, IsWord w) : (delimiters.foldl cut ws).length ≤ ws.length := by
  induction delimiters generalizing ws with
  | nil => exact Nat.le_refl _
  | cons c delimiters ih =>
      have hcut : ∀ w ∈ cut ws c, IsWord w := fun w hw => isWord_of_mem_words hw
      rw [List.foldl_cons]
      exact Nat.le_trans (ih hcut) (length_cut_le h c)

theorem length_lastItems_le {α : Type} (n : ℕ) (l : List α) : (lastItems n l).length ≤ n := by
  unfold lastItems
  rw [List.length_drop]
  omega

theorem length_candidates_le (s : Search) (text : String) :
    (s.candidates text).length ≤ s.window := by
  have hwords : ∀ w ∈ lastItems s.window (words text), IsWord w :=
    fun w hw => isWord_of_mem_words (List.mem_of_mem_drop hw)
  exact Nat.le_trans (length_foldl_cut_le hwords) (length_lastItems_le s.window (words text))

/-! ### Keys of the last words -/

/-- The key that the last `k` of some words form. -/
def keyOfLast (ws : List String) (k : ℕ) : String := key (lastItems k ws)

theorem lastItems_of_length_le {α : Type} {k : ℕ} {l : List α} (h : l.length ≤ k) :
    lastItems k l = l := by
  unfold lastItems
  rw [Nat.sub_eq_zero_of_le h, List.drop_zero]

theorem lastItems_length {α : Type} (l : List α) : lastItems l.length l = l :=
  lastItems_of_length_le (Nat.le_refl _)

theorem lastItems_append {α : Type} (m : List α) {l : List α} {k : ℕ} (h : k ≤ l.length) :
    lastItems k (m ++ l) = lastItems k l := by
  have hdrop : (m ++ l).length - k = m.length + (l.length - k) := by
    rw [List.length_append]
    omega
  unfold lastItems
  rw [hdrop, ← List.drop_drop, List.drop_left]

theorem lastItems_cons {α : Type} (a : α) {l : List α} {k : ℕ} (h : k ≤ l.length) :
    lastItems k (a :: l) = lastItems k l := lastItems_append [a] h

theorem keyOfLast_length (ws : List String) : keyOfLast ws ws.length = key ws := by
  unfold keyOfLast
  rw [lastItems_length]

theorem keyOfLast_cons (w : String) {ws : List String} {k : ℕ} (h : k ≤ ws.length) :
    keyOfLast (w :: ws) k = keyOfLast ws k := by
  unfold keyOfLast
  rw [lastItems_cons w h]

end Search

namespace Dictionary

open Search (keyOfLast keyOfLast_length keyOfLast_cons)

/-! ### What is found -/

/-- The entry of a key lists these phrases. -/
def Lists (d : Dictionary) (key : String) (phrases : List String) : Prop :=
  ∃ g, d.get? key = some g ∧ g.words = .ok phrases

theorem Lists.unique {d : Dictionary} {key : String} {phrases phrases' : List String}
    (h : d.Lists key phrases) (h' : d.Lists key phrases') : phrases = phrases' := by
  obtain ⟨g, hg, hp⟩ := h
  obtain ⟨g', hg', hp'⟩ := h'
  obtain rfl := Option.some.inj (hg.symm.trans hg')
  exact Except.ok.inj (hp.symm.trans hp')

section reference

variable (d : Dictionary) (s : Search) (ws : List String)

/-- The key of the last `k` words is passed over: it has no entry, or its entry has only empty
phrases among the first ones. -/
inductive Skips (k : ℕ) : Prop
  | unknown (h : d.get? (keyOfLast ws k) = none)
  | blank {g : Grammar String} {phrases : List String} (hg : d.get? (keyOfLast ws k) = some g)
      (hp : g.words = .ok phrases) (hb : ∀ w ∈ phrases.take s.maxResults, w = "")

/-- The key of the last `k` words ends the search: with the error of its entry, or with the phrases
among the first ones that are not empty. -/
inductive Stops (k : ℕ) : Except GrammarError (Option Suggestion) → Prop
  | error {g : Grammar String} {error : GrammarError} (hg : d.get? (keyOfLast ws k) = some g)
      (he : g.words = .error error) : Stops k (.error error)
  | found {g : Grammar String} {phrases : List String} (hg : d.get? (keyOfLast ws k) = some g)
      (hp : g.words = .ok phrases) (hne : ∃ w ∈ phrases.take s.maxResults, w ≠ "") :
      Stops k (.ok (some ⟨keyOfLast ws k, k, (phrases.take s.maxResults).filter (· ≠ "")⟩))

/-- What a search that lists completions finds for some candidate words: what ends it at the
greatest number of last words that are not passed over. -/
inductive Finds : Except GrammarError (Option Suggestion) → Prop
  | nothing (h : ∀ k, 1 ≤ k → k ≤ ws.length → Skips d s ws k) : Finds (.ok none)
  | stops {k : ℕ} {r : Except GrammarError (Option Suggestion)} (hk : 1 ≤ k) (hle : k ≤ ws.length)
      (hlonger : ∀ j, k < j → j ≤ ws.length → Skips d s ws j) (hr : Stops d s ws k r) : Finds r

end reference

variable {d : Dictionary} {s : Search} {ws : List String}
variable {r r' : Except GrammarError (Option Suggestion)}

theorem Skips.cons {k : ℕ} (w : String) (hk : k ≤ ws.length) (h : Skips d s ws k) :
    Skips d s (w :: ws) k := by
  have hkey := keyOfLast_cons w hk
  cases h with
  | unknown h =>
      rw [← hkey] at h
      exact .unknown h
  | blank hg hp hb =>
      rw [← hkey] at hg
      exact .blank hg hp hb

theorem Stops.cons {k : ℕ} (w : String) (hk : k ≤ ws.length) (h : Stops d s ws k r) :
    Stops d s (w :: ws) k r := by
  have hkey := keyOfLast_cons w hk
  cases h with
  | error hg he =>
      rw [← hkey] at hg
      exact .error hg he
  | found hg hp hne =>
      rw [← hkey] at hg ⊢
      exact .found hg hp hne

/-- With one more word in front, there is one more key to pass over: that of all words together. -/
theorem Skips.cons_all {i : ℕ} {w : String} (hskip : Skips d s (w :: ws) (ws.length + 1))
    (h : ∀ k, i ≤ k → k ≤ ws.length → Skips d s ws k) :
    ∀ k, i ≤ k → k ≤ (w :: ws).length → Skips d s (w :: ws) k := by
  intro k hk hle
  rcases Nat.lt_or_ge ws.length k with hlt | hge
  · have hall : k = ws.length + 1 := by
      rw [List.length_cons] at hle
      omega
    rw [hall]
    exact hskip
  · exact (h k hk hge).cons w hge

theorem Finds.cons {w : String} (hskip : Skips d s (w :: ws) (ws.length + 1))
    (h : Finds d s ws r) : Finds d s (w :: ws) r := by
  cases h with
  | nothing h => exact .nothing (hskip.cons_all h)
  | stops hk hle hlonger hr =>
      exact .stops hk (Nat.le_succ_of_le hle) (hskip.cons_all hlonger) (hr.cons w hle)

theorem Finds.of_stops_all {w : String} (h : Stops d s (w :: ws) (ws.length + 1) r) :
    Finds d s (w :: ws) r := by
  refine .stops (Nat.le_add_left 1 ws.length) (Nat.le_refl _) ?_ h
  intro j hj hle
  exact absurd hle (Nat.not_le_of_lt hj)

/-! ### One thing is found -/

theorem Skips.not_stops {k : ℕ} (h : Skips d s ws k) : ¬ Stops d s ws k r := by
  intro h'
  cases h with
  | unknown h =>
      cases h' with
      | error hg _ => simp [h] at hg
      | found hg _ _ => simp [h] at hg
  | blank hg hp hb =>
      cases h' with
      | error hg' he =>
          obtain rfl := Option.some.inj (hg.symm.trans hg')
          simp [hp] at he
      | found hg' hp' hne =>
          obtain rfl := Option.some.inj (hg.symm.trans hg')
          obtain rfl := Except.ok.inj (hp.symm.trans hp')
          obtain ⟨w, hw, hne⟩ := hne
          exact hne (hb w hw)

theorem Stops.unique {k : ℕ} (h : Stops d s ws k r) (h' : Stops d s ws k r') : r = r' := by
  cases h with
  | error hg he =>
      cases h' with
      | error hg' he' =>
          obtain rfl := Option.some.inj (hg.symm.trans hg')
          obtain rfl := Except.error.inj (he.symm.trans he')
          rfl
      | found hg' hp' _ =>
          obtain rfl := Option.some.inj (hg.symm.trans hg')
          simp [he] at hp'
  | found hg hp _ =>
      cases h' with
      | error hg' he' =>
          obtain rfl := Option.some.inj (hg.symm.trans hg')
          simp [hp] at he'
      | found hg' hp' _ =>
          obtain rfl := Option.some.inj (hg.symm.trans hg')
          obtain rfl := Except.ok.inj (hp.symm.trans hp')
          rfl

theorem Finds.unique (h : Finds d s ws r) (h' : Finds d s ws r') : r = r' := by
  cases h with
  | nothing h =>
      cases h' with
      | nothing => rfl
      | stops hk hle _ hr => exact absurd hr (h _ hk hle).not_stops
  | @stops k r hk hle hlonger hr =>
      cases h' with
      | nothing h' => exact absurd hr (h' _ hk hle).not_stops
      | @stops k' r' hk' hle' hlonger' hr' =>
          rcases Nat.lt_trichotomy k k' with hlt | rfl | hlt
          · exact absurd hr' (hlonger k' hlt hle').not_stops
          · exact hr.unique hr'
          · exact absurd hr (hlonger' k hlt hle).not_stops

/-! ### The bounds of what is found -/

/-- A suggestion is made from one word or more, and has a completion. -/
theorem Finds.bounds {found : Suggestion} (h : Finds d s ws (.ok (some found))) :
    1 ≤ found.matchedWords ∧ found.matchedWords ≤ ws.length ∧
      1 ≤ found.completions.length ∧ found.completions.length ≤ s.maxResults ∧
      ∀ w ∈ found.completions, w ≠ "" := by
  cases h with
  | stops hk hle _ hr =>
      cases hr with
      | @found g phrases hg hp hne =>
          obtain ⟨w, hw, hwne⟩ := hne
          have hmem : w ∈ (phrases.take s.maxResults).filter (· ≠ "") :=
            List.mem_filter.mpr ⟨hw, by simpa using hwne⟩
          have hfilter := List.length_filter_le (fun w => decide (w ≠ ""))
            (phrases.take s.maxResults)
          have htake := List.length_take_le s.maxResults phrases
          refine ⟨hk, hle, List.length_pos_of_mem hmem, Nat.le_trans hfilter htake, ?_⟩
          intro v hv
          simpa using (List.mem_filter.mp hv).2

/-! ### What a search finds -/

theorem suggestFrom_of_none {w : String} (h : d.get? (Search.key (w :: ws)) = none)
    (draws : Draws) : d.suggestFrom s (w :: ws) draws = d.suggestFrom s ws draws := by
  rw [suggestFrom, h]

/-- What a search does at a key that has an entry. -/
theorem suggestFrom_of_some {w : String} {g : Grammar String}
    (h : d.get? (Search.key (w :: ws)) = some g) (draws : Draws) :
    d.suggestFrom s (w :: ws) draws =
      match completions s g draws with
      | (.error error, draws) => (.error error, draws)
      | (.ok found, draws) =>
        if found.filter (· ≠ "") = [] then d.suggestFrom s ws draws
        else (.ok (some ⟨Search.key (w :: ws), ws.length + 1, found.filter (· ≠ "")⟩), draws) := by
  rw [suggestFrom, h]
  rcases hc : completions s g draws with ⟨error | found, draws'⟩
  · exact Draws.bind_of_eq hc
  · refine (Draws.bind_of_eq hc).trans ?_
    show (ite _ _ _ : StateM Draws _) draws' = ite _ _ _
    split_ifs with hblank
    · rfl
    · rfl

theorem completions_all (hall : s.mode = .all) (g : Grammar String) (draws : Draws) :
    completions s g draws = (g.firstWords s.maxResults, draws) := by
  unfold completions
  rw [hall]
  rfl

/-- The key of all words together ends a search that lists completions, or it is passed over and the
search goes on without the first word. -/
theorem suggestFrom_step (hall : s.mode = .all) (w : String) (ws : List String) (draws : Draws) :
    (Stops d s (w :: ws) (ws.length + 1) (d.suggestFrom s (w :: ws) draws).1 ∧
        (d.suggestFrom s (w :: ws) draws).2 = draws) ∨
      (Skips d s (w :: ws) (ws.length + 1) ∧
        d.suggestFrom s (w :: ws) draws = d.suggestFrom s ws draws) := by
  have hkey : keyOfLast (w :: ws) (ws.length + 1) = Search.key (w :: ws) :=
    keyOfLast_length (w :: ws)
  cases hg : d.get? (Search.key (w :: ws)) with
  | none =>
      right
      rw [suggestFrom_of_none hg]
      rw [← hkey] at hg
      exact ⟨.unknown hg, rfl⟩
  | some g =>
      rw [suggestFrom_of_some hg, completions_all hall]
      rw [← hkey] at hg ⊢
      cases hp : g.words with
      | error error =>
          left
          rw [Grammar.firstWords_of_error hp]
          exact ⟨.error hg hp, rfl⟩
      | ok phrases =>
          rw [Grammar.firstWords_of_ok hp]
          by_cases hblank : (phrases.take s.maxResults).filter (· ≠ "") = []
          · right
            have hb : ∀ v ∈ phrases.take s.maxResults, v = "" := by
              simpa [List.filter_eq_nil_iff] using hblank
            exact ⟨.blank hg hp hb, if_pos hblank⟩
          · left
            have hne : ∃ v ∈ phrases.take s.maxResults, v ≠ "" := by
              simpa [List.filter_eq_nil_iff] using hblank
            have hfound := Stops.found hg hp hne
            simp only [if_neg hblank, and_true]
            exact hfound

/-- A search that lists completions takes no word from the stream, and finds what it must. -/
theorem suggestFrom_finds (hall : s.mode = .all) (ws : List String) (draws : Draws) :
    Finds d s ws (d.suggestFrom s ws draws).1 ∧ (d.suggestFrom s ws draws).2 = draws := by
  induction ws with
  | nil =>
      refine ⟨.nothing ?_, rfl⟩
      intro k hk hle
      rw [List.length_nil] at hle
      omega
  | cons w ws ih =>
      rcases suggestFrom_step hall w ws draws with ⟨hstops, hdraws⟩ | ⟨hskips, hrest⟩
      · exact ⟨.of_stops_all hstops, hdraws⟩
      · rw [hrest]
        exact ⟨ih.1.cons hskips, ih.2⟩

/-- What a search that lists completions finds for a text. -/
inductive Completes (d : Dictionary) (s : Search) (text : String) :
    Except GrammarError (Option Suggestion) → Prop
  | noSlug (h : slug "_" text = "") : Completes d s text (.ok none)
  | candidates {r : Except GrammarError (Option Suggestion)} (h : slug "_" text ≠ "")
      (hf : Finds d s (s.candidates text) r) : Completes d s text r

variable {text : String}

theorem Completes.unique (h : Completes d s text r) (h' : Completes d s text r') : r = r' := by
  cases h with
  | noSlug h =>
      cases h' with
      | noSlug => rfl
      | candidates hne _ => exact absurd h hne
  | candidates hne hf =>
      cases h' with
      | noSlug h => exact absurd h hne
      | candidates _ hf' => exact hf.unique hf'

theorem suggest_completes (hall : s.mode = .all) (text : String) (draws : Draws) :
    Completes d s text (d.suggest s text draws).1 ∧ (d.suggest s text draws).2 = draws := by
  unfold suggest
  split_ifs with hslug
  · exact ⟨.noSlug hslug, rfl⟩
  · obtain ⟨hf, hdraws⟩ := suggestFrom_finds (d := d) hall (s.candidates text) draws
    exact ⟨.candidates hslug hf, hdraws⟩

/-- **What a search finds.**  A search that lists completions, whatever settings were tried on it,
finds for every text what its longest key that is not passed over leads to, and nothing else; it
takes no word from the stream.  A suggestion is made from at least one word and at most as many as
the window has, and has at least one completion and at most as many as the limit allows, none of
them empty. -/
theorem suggest_iff_completes (d : Dictionary) (start : Mode) (settings : List Setting)
    (hall : ((Search.new start).settle settings).mode = .all) (text : String) (draws : Draws) :
    let s := (Search.new start).settle settings
    (∀ r, (d.suggest s text draws).1 = r ↔ Completes d s text r) ∧
      (d.suggest s text draws).2 = draws ∧
      ∀ found, (d.suggest s text draws).1 = .ok (some found) →
        1 ≤ found.matchedWords ∧ found.matchedWords ≤ s.window ∧
          1 ≤ found.completions.length ∧ found.completions.length ≤ s.maxResults ∧
          ∀ w ∈ found.completions, w ≠ "" := by
  intro s
  obtain ⟨hcompletes, hdraws⟩ := suggest_completes (d := d) hall text draws
  refine ⟨?_, hdraws, ?_⟩
  · intro r
    constructor
    · rintro rfl
      exact hcompletes
    · exact hcompletes.unique
  · intro found hfound
    rw [hfound] at hcompletes
    cases hcompletes with
    | candidates _ hf =>
        obtain ⟨hpos, hle, hbounds⟩ := hf.bounds
        exact ⟨hpos, Nat.le_trans hle (s.length_candidates_le text), hbounds⟩

/-- All three words have no entry, the two last have one whose only phrase is empty, and the last
has one with an empty phrase among the first two.  A window of no words was refused. -/
theorem suggest_iff_completes_like :
    let silent : Grammar String := ⟨.ofList [("main", .literals [""])], "main"⟩
    let animals : Grammar String := ⟨.ofList [("main", .literals ["", "cats", "dogs"])], "main"⟩
    let d : Dictionary := ⟨.ofList [("i_like", silent), ("like", animals)], []⟩
    let settings : List Setting := [.window 0, .maxResults (some 2), .mode .all]
    ((Search.new .one).settle settings).mode = .all ∧
      (d.suggest ((Search.new .one).settle settings) "so I like" (Draws.ofWords [])).1 =
        .ok (some ⟨"like", 1, ["cats"]⟩) := by
  intro silent animals d settings
  have hall : ((Search.new .one).settle settings).mode = .all := by decide
  have hcandidates : ((Search.new .one).settle settings).candidates "so I like" =
      ["so", "I", "like"] := by decide +kernel
  have hsilent : silent.branch? "main" = some (Node.literals [""]) := by decide +kernel
  have hanimals : animals.branch? "main" = some (Node.literals ["", "cats", "dogs"]) := by
    decide +kernel
  have hthree : Skips d ((Search.new .one).settle settings) ["so", "I", "like"] 3 :=
    .unknown (by decide +kernel)
  have htwo : Skips d ((Search.new .one).settle settings) ["so", "I", "like"] 2 :=
    .blank (by decide +kernel) (Grammar.words_of_literals hsilent) (by decide)
  have hone : Stops d ((Search.new .one).settle settings) ["so", "I", "like"] 1 _ :=
    .found (by decide +kernel) (Grammar.words_of_literals hanimals) (by decide)
  have hkey : keyOfLast ["so", "I", "like"] 1 = "like" := by decide +kernel
  refine ⟨hall, ((suggest_iff_completes d .one settings hall _ _).1 _).mpr ?_⟩
  refine .candidates (by decide +kernel) ?_
  rw [hcandidates]
  rw [hkey] at hone
  refine .stops (Nat.le_refl 1) (by decide) ?_ hone
  intro j hj hle
  have hle : j ≤ 3 := hle
  obtain rfl | rfl : j = 2 ∨ j = 3 := by omega
  · exact htwo
  · exact hthree

end Dictionary
end Typeahead
