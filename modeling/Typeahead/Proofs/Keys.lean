import Typeahead.Proofs.Agreement
import Typeahead.Proofs.Composition
import Typeahead.Proofs.Cutting
import Typeahead.Proofs.NormalForm

/-! # Keys that can be found

A search looks up slugs only, so that of a dictionary it sees nothing but the entries whose keys are
their own slugs (`Dictionary.suggest_congr_of_live`).  Each of these is found: its key with spaces
in place of the underscores can stand at the end of any text, and its pieces are then the words that
are looked up first (`Search.candidates_of_end`).

A key is empty exactly if none of its words has a slug (`Search.key_eq_empty_iff`).  Nothing is
looked up for a text without a slug, but words without a slug at the end of another text are looked
up under the empty key. -/

namespace Typeahead

open Search (lastItems keyOfLast)

namespace Search

/-! ### Keys and their words -/

/-- The words of a key: spaces stand in place of its underscores. -/
def spaced (key : String) : String := .ofList (replaceEach '_' [' '] key.toList)

theorem isWord_of_mem_pieces {text piece : String} (h : piece ∈ Slug.pieces text) :
    IsWord piece := by
  rw [Slug.pieces_eq] at h
  obtain ⟨cs, hcs, rfl⟩ := List.mem_map.mp h
  obtain ⟨hne, halpha⟩ := Slug.isPiece_of_mem_spelled hcs
  refine ⟨by simpa using hne, fun c hc => ?_⟩
  rw [String.toList_ofList] at hc
  exact Slug.isBlank_of_isAlphanum (halpha c hc).isAlphanum

section live

variable {key : String}

theorem toList_of_live (h : slug "_" key = key) :
    key.toList = ['_'].intercalate (Slug.spelled key.toList) := by
  have hslug := Slug.toList_slug "_" key
  rwa [h] at hslug

theorem spaced_of_live (h : slug "_" key = key) : spaced key = joinWords (Slug.pieces key) := by
  have hpieces : ∀ p ∈ Slug.spelled key.toList, '_' ∉ p := fun p hp =>
    (Slug.isPiece_of_mem_spelled hp).not_mem_of (by decide)
  have hjoined : (joinWords (Slug.pieces key)).toList =
      [' '].intercalate (Slug.spelled key.toList) := Slug.toList_slug " " key
  rw [spaced, toList_of_live h, replaceEach_intercalate _ hpieces, ← hjoined, String.ofList_toList]

theorem length_splitOn_of_live (hne : key ≠ "") (h : slug "_" key = key) :
    (key.toList.splitOn '_').length = (Slug.pieces key).length := by
  have hpieces : ∀ p ∈ Slug.spelled key.toList, '_' ∉ p := fun p hp =>
    (Slug.isPiece_of_mem_spelled hp).not_mem_of (by decide)
  have hspelled : Slug.spelled key.toList ≠ [] := by
    intro hnone
    have hlist := toList_of_live h
    rw [hnone, List.intercalate_nil] at hlist
    exact hne (by simpa using hlist)
  rw [toList_of_live h, List.splitOn_intercalate '_' hpieces hspelled, Slug.pieces_eq,
    List.length_map]

theorem pieces_ne_nil_of_live (hne : key ≠ "") (h : slug "_" key = key) :
    Slug.pieces key ≠ [] := by
  intro hnone
  rw [← Slug.slug_eq_empty_iff "_", h] at hnone
  exact hne hnone

theorem pieces_joinWords_pieces (text : String) :
    Slug.pieces (joinWords (Slug.pieces text)) = Slug.pieces text :=
  Slug.pieces_slug (by decide) (by simp [Slug.Parts, isBlank, blankRanges]) text

theorem key_pieces_of_live (h : slug "_" key = key) : Search.key (Slug.pieces key) = key := by
  rw [Search.key, slug, pieces_joinWords_pieces, ← slug, h]

end live

theorem slug_key (ws : List String) : slug "_" (key ws) = key ws :=
  slug_slug (by decide) (by simp [Slug.Parts, Slug.marks]) "_" (joinWords ws)

theorem key_eq_empty_iff (ws : List String) : key ws = "" ↔ ∀ w ∈ ws, slug "_" w = "" := by
  rw [key_eq_joinSlugs, joinSlugs_eq_empty_iff]
  simp

/-! ### Candidates at the end of a text -/

theorem afterDelimiters_append {delimiters : List Char} (before : String) {rest : String}
    (h : ∀ c ∈ rest.toList, c ∉ delimiters) :
    afterDelimiters delimiters (before ++ rest) = afterDelimiters delimiters before ++ rest := by
  unfold afterDelimiters
  rw [String.toList_append, rtakeWhile_append_of_forall _ (by simpa using h), String.ofList_append,
    String.ofList_toList]

theorem words_append_space (a b : String) : words (a ++ " " ++ b) = words a ++ words b := by
  have hruns : (a ++ " " ++ b).toList = a.toList ++ ' ' :: b.toList := by simp
  rw [words_eq_runs, hruns, runsBetween_append_cons (by decide), List.map_append]
  rfl

/-- The words that stand at the end of a text are the candidates, if the window has as many and no
delimiter occurs in them. -/
theorem candidates_of_end {s : Search} {ws : List String} (hws : ∀ w ∈ ws, IsWord w)
    (hwindow : s.window = ws.length) (hdelimiters : ∀ c ∈ s.delimiters, c ∉ (joinWords ws).toList)
    (before : String) : s.candidates (before ++ " " ++ joinWords ws) = ws := by
  have hspace : ∀ c ∈ (" " ++ joinWords ws).toList, c ∉ s.delimiters := by
    intro c hc hmem
    rw [String.toList_append, List.mem_append] at hc
    rcases hc with hc | hc
    · obtain rfl : c = ' ' := by simpa using hc
      cases s.delimiters_solid ' ' hmem
    · exact hdelimiters c hmem hc
  rw [candidates_eq, String.append_assoc, afterDelimiters_append before hspace,
    ← String.append_assoc, words_append_space, words_joinWords hws, hwindow,
    lastItems_append _ (Nat.le_refl _), lastItems_length]

end Search

namespace Dictionary

variable {d : Dictionary} {s : Search} {ws : List String} {text : String} {found : Suggestion}

/-! ### Keys of suggestions -/

/-- A suggestion that is made from the last ones of some words: their key has an entry. -/
structure MadeFrom (d : Dictionary) (ws : List String) (found : Suggestion) : Prop where
  pos : 1 ≤ found.matchedWords
  le : found.matchedWords ≤ ws.length
  key_eq : found.key = keyOfLast ws found.matchedWords
  entry : ∃ g, d.get? found.key = some g

theorem MadeFrom.cons (w : String) (h : d.MadeFrom ws found) : d.MadeFrom (w :: ws) found where
  pos := h.pos
  le := Nat.le_succ_of_le h.le
  key_eq := h.key_eq.trans (Search.keyOfLast_cons w h.le).symm
  entry := h.entry

/-- What is suggested for the key of all words together, if it has an entry. -/
theorem MadeFrom.of_all {g : Grammar String} (w : String) (ws listed : List String)
    (hg : d.get? (Search.key (w :: ws)) = some g) :
    d.MadeFrom (w :: ws) ⟨Search.key (w :: ws), ws.length + 1, listed⟩ where
  pos := Nat.le_add_left 1 ws.length
  le := Nat.le_refl _
  key_eq := (Search.keyOfLast_length (w :: ws)).symm
  entry := ⟨g, hg⟩

theorem madeFrom_of_suggestFrom {draws : Draws}
    (h : (d.suggestFrom s ws draws).1 = .ok (some found)) : d.MadeFrom ws found := by
  induction ws generalizing draws with
  | nil =>
      have hnone : (d.suggestFrom s [] draws).1 = .ok none := rfl
      rw [hnone] at h
      cases h
  | cons w ws ih =>
      cases hg : d.get? (Search.key (w :: ws)) with
      | none =>
          rw [suggestFrom_of_none hg] at h
          exact (ih h).cons w
      | some g =>
          rw [suggestFrom_of_some hg] at h
          rcases hcompletions : completions s g draws with ⟨error | listed, draws'⟩
          · rw [hcompletions] at h
            cases h
          · rw [hcompletions] at h
            dsimp only at h
            split_ifs at h with hblank
            · exact (ih h).cons w
            · obtain rfl := Option.some.inj (Except.ok.inj h)
              exact .of_all w ws _ hg

theorem madeFrom_of_suggest {draws : Draws}
    (h : (d.suggest s text draws).1 = .ok (some found)) :
    slug "_" text ≠ "" ∧ d.MadeFrom (s.candidates text) found := by
  by_cases hslug : slug "_" text = ""
  · rw [suggest_of_no_slug hslug] at h
    cases h
  · rw [suggest_of_slug hslug] at h
    exact ⟨hslug, madeFrom_of_suggestFrom h⟩

/-! ### Live keys -/

/-- Dictionaries suggest the same if they agree on the keys that are their own slugs. -/
theorem suggest_congr_of_live {e : Dictionary}
    (h : ∀ key, slug "_" key = key → e.get? key = d.get? key) (s : Search) (text : String) :
    e.suggest s text = d.suggest s text := by
  have hfrom : ∀ ws, e.suggestFrom s ws = d.suggestFrom s ws := by
    intro ws
    induction ws with
    | nil => rfl
    | cons w ws ih => rw [suggestFrom, suggestFrom, h _ (Search.slug_key (w :: ws)), ih]
  rw [suggest, suggest, hfrom]

/-- The key of the words at the end of a text is found, if its entry lists a completion. -/
theorem suggest_of_live {key : String} {g : Grammar String} {listed : List String}
    (hg : d.get? key = some g) (hne : key ≠ "") (hlive : slug "_" key = key)
    (hall : s.mode = .all) (hlisted : g.firstWords s.maxResults = .ok listed)
    (hsome : ∃ w ∈ listed, w ≠ "") (hwindow : s.window = (key.toList.splitOn '_').length)
    (hdelimiters : ∀ c ∈ s.delimiters, c ∉ (Search.spaced key).toList) (before : String)
    (draws : Draws) :
    d.suggest s (before ++ " " ++ Search.spaced key) draws =
      (.ok (some ⟨key, s.window, listed.filter (· ≠ "")⟩), draws) := by
  rw [Search.length_splitOn_of_live hne hlive] at hwindow
  rw [Search.spaced_of_live hlive] at hdelimiters ⊢
  have hslug : slug "_" (before ++ " " ++ joinWords (Slug.pieces key)) ≠ "" := by
    rw [Ne, Slug.slug_eq_empty_iff, Slug.pieces_append_space, Search.pieces_joinWords_pieces,
      List.append_eq_nil_iff, not_and]
    exact fun _ => Search.pieces_ne_nil_of_live hne hlive
  have hcandidates := Search.candidates_of_end (fun w hw => Search.isWord_of_mem_pieces hw) hwindow
    hdelimiters before
  have hkey := Search.key_pieces_of_live hlive
  obtain ⟨w, ws, hpieces⟩ := List.exists_cons_of_ne_nil (Search.pieces_ne_nil_of_live hne hlive)
  rw [hpieces] at hwindow hkey
  have hkept : listed.filter (· ≠ "") ≠ [] := by
    obtain ⟨v, hv, hvne⟩ := hsome
    exact List.ne_nil_of_mem (List.mem_filter.mpr ⟨hv, by simpa using hvne⟩)
  rw [suggest_of_slug hslug, hcandidates, hpieces, suggestFrom_of_some (by rwa [hkey]),
    completions_all hall, hlisted, hkey, hwindow]
  exact if_neg hkept

/-- **Live keys.**  What a search suggests is made from an entry whose key is its own slug, and the
entries under other keys do not matter: dictionaries that agree on the keys that are their own slugs
suggest the same, for any text and search.  Each of these keys can be found, if it is not empty and
its entry lists a completion up to the limit: behind any text and a space its words, with spaces in
place of the underscores, are found by a search that lists completions, if the window has as many
words as the key has segments and none of the delimiters occurs in them. -/
theorem suggest_live_keys (d : Dictionary) :
    (∀ (s : Search) text draws found, (d.suggest s text draws).1 = .ok (some found) →
        slug "_" found.key = found.key ∧ ∃ g, d.get? found.key = some g) ∧
      (∀ e : Dictionary, (∀ key, slug "_" key = key → e.get? key = d.get? key) →
        ∀ (s : Search) text, e.suggest s text = d.suggest s text) ∧
      ∀ key g (s : Search) listed, d.get? key = some g → key ≠ "" → slug "_" key = key →
        s.mode = .all → g.firstWords s.maxResults = .ok listed → (∃ w ∈ listed, w ≠ "") →
        s.window = (key.toList.splitOn '_').length →
        (∀ c ∈ s.delimiters, c ∉ (Search.spaced key).toList) →
        ∀ before draws, (d.suggest s (before ++ " " ++ Search.spaced key) draws).1 =
          .ok (some ⟨key, (key.toList.splitOn '_').length, listed.filter (· ≠ "")⟩) := by
  refine ⟨?_, fun e he s text => suggest_congr_of_live he s text, ?_⟩
  · intro s text draws found h
    have hmade := (madeFrom_of_suggest h).2
    refine ⟨?_, hmade.entry⟩
    rw [hmade.key_eq]
    exact Search.slug_key _
  · intro key g s listed hg hne hlive hall hlisted hsome hwindow hdelimiters before draws
    rw [suggest_of_live hg hne hlive hall hlisted hsome hwindow hdelimiters, hwindow]

/-- The entry under `I like` does not matter.  The key `i_like` has two segments, and the delimiter
stands before its words. -/
theorem suggest_live_keys_like :
    let animals : Grammar String := ⟨.ofList [("main", .literals ["cats", "dogs"])], "main"⟩
    let e : Dictionary := ⟨.ofList [("i_like", animals)], []⟩
    let d : Dictionary := e.insert "I like" animals
    let s : Search := { Search.new .all with window := 2, window_pos := by decide }
    (∀ key, slug "_" key = key → e.get? key = d.get? key) ∧ d.get? "i_like" = some animals ∧
      slug "_" "i_like" = "i_like" ∧ s.mode = .all ∧
      animals.firstWords s.maxResults = .ok ["cats", "dogs"] ∧
      s.window = ("i_like".toList.splitOn '_').length ∧
      (∀ c ∈ s.delimiters, c ∉ (Search.spaced "i_like").toList) ∧
      e.suggest s "so. i like" = d.suggest s "so. i like" ∧
      (d.suggest s "so. i like" (Draws.ofWords [])).1 =
        .ok (some ⟨"i_like", 2, ["cats", "dogs"]⟩) := by
  intro animals e d s
  have hkey : Search.key ["i", "like"] = "i_like" := by decide +kernel
  have hlive : slug "_" "i_like" = "i_like" := hkey ▸ Search.slug_key ["i", "like"]
  have hdead : slug "_" "I like" ≠ "I like" := by decide +kernel
  have hagree : ∀ key, slug "_" key = key → e.get? key = d.get? key := by
    intro key hslug
    have hne : key ≠ "I like" := by
      rintro rfl
      exact hdead hslug
    have hinsert := Table.get?_insert e.entries "I like" animals key
    rw [if_neg hne] at hinsert
    exact hinsert.symm
  have hentry : d.get? "i_like" = some animals := by decide +kernel
  have hlisted : animals.firstWords s.maxResults = .ok ["cats", "dogs"] := by
    rw [Grammar.firstWords_of_ok (Grammar.words_of_literals
      (show _ = some (Node.literals ["cats", "dogs"]) by decide +kernel))]
    decide +kernel
  have hdelimiters : ∀ c ∈ s.delimiters, c ∉ (Search.spaced "i_like").toList := by
    simp [s, Search.new, Search.spaced, replaceEach]
  have hwindow : s.window = ("i_like".toList.splitOn '_').length := by decide +kernel
  obtain ⟨-, hcongr, hfound⟩ := suggest_live_keys d
  refine ⟨hagree, hentry, hlive, rfl, hlisted, hwindow, hdelimiters, hcongr e hagree s _, ?_⟩
  exact hfound "i_like" animals s _ hentry (by decide) hlive rfl hlisted (by simp) hwindow
    hdelimiters "so." _

/-! ### The empty key -/

theorem getLast?_mem_lastItems {k : ℕ} (hk : 1 ≤ k) {w : String} (h : ws.getLast? = some w) :
    w ∈ lastItems k ws := by
  obtain ⟨front, rfl⟩ := List.getLast?_eq_some_iff.mp h
  have hdrop : (front ++ [w]).length - k ≤ front.length := by
    rw [List.length_append, List.length_singleton]
    omega
  rw [lastItems, List.drop_append_of_le_length hdrop]
  simp

/-- Words without a slug are matched on their own: all longer runs of words at the end of the text
are passed over, and the entry of the empty key lists a completion up to the limit. -/
def MatchesNoWord (d : Dictionary) (s : Search) (text : String) : Prop :=
  slug "_" text ≠ "" ∧ ∃ k, 1 ≤ k ∧ k ≤ (s.candidates text).length ∧
    (∀ w ∈ lastItems k (s.candidates text), slug "_" w = "") ∧
    (∀ j, k < j → j ≤ (s.candidates text).length → Skips d s (s.candidates text) j) ∧
    ∃ phrases, d.Lists "" phrases ∧ ∃ w ∈ phrases.take s.maxResults, w ≠ ""

theorem matchesNoWord_of_suggest (hall : s.mode = .all) {draws : Draws}
    (h : (d.suggest s text draws).1 = .ok (some found)) (hempty : found.key = "") :
    d.MatchesNoWord s text := by
  have hcompletes := (suggest_completes (d := d) hall text draws).1
  rw [h] at hcompletes
  cases hcompletes with
  | candidates hslug hf =>
      cases hf with
      | @stops k _ hk hle hlonger hr =>
          cases hr with
          | @found g phrases hg hp hne =>
              dsimp only at hempty
              have hslugs := (Search.key_eq_empty_iff (lastItems k (s.candidates text))).mp hempty
              rw [hempty] at hg
              exact ⟨hslug, k, hk, hle, hslugs, hlonger, phrases, ⟨g, hg, hp⟩, hne⟩

theorem MatchesNoWord.exists_suggest (hall : s.mode = .all) (h : d.MatchesNoWord s text)
    (draws : Draws) : ∃ found, (d.suggest s text draws).1 = .ok (some found) ∧ found.key = "" := by
  obtain ⟨hslug, k, hk, hle, hempty, hlonger, phrases, ⟨g, hg, hp⟩, hne⟩ := h
  have hkey : keyOfLast (s.candidates text) k = "" := (Search.key_eq_empty_iff _).mpr hempty
  rw [← hkey] at hg
  have hfinds := Finds.stops hk hle hlonger (.found hg hp hne)
  exact ⟨_, Completes.suggest_eq hall (.candidates hslug hfinds) draws, hkey⟩

/-- **Words without a slug.**  The key of a suggestion is empty exactly if none of the words that
were matched has a slug.  Then the last candidate has none, though the text has one, and the
dictionary has an entry under the empty key; in all other cases a suggestion is made from a word.
A search that lists completions suggests the empty key exactly if all longer runs of words are
passed over. -/
theorem suggest_key_eq_empty_iff (d : Dictionary) (s : Search) (text : String) (draws : Draws) :
    (∀ found, (d.suggest s text draws).1 = .ok (some found) →
        (found.key = "" ↔
          ∀ w ∈ lastItems found.matchedWords (s.candidates text), slug "_" w = "") ∧
        (found.key = "" → slug "_" text ≠ "" ∧ (∃ g, d.get? "" = some g) ∧
          ∀ w, (s.candidates text).getLast? = some w → slug "_" w = "")) ∧
      (s.mode = .all →
        ((∃ found, (d.suggest s text draws).1 = .ok (some found) ∧ found.key = "") ↔
          d.MatchesNoWord s text)) := by
  refine ⟨?_, ?_⟩
  · intro found h
    obtain ⟨hslug, hmade⟩ := madeFrom_of_suggest h
    have hiff : found.key = "" ↔
        ∀ w ∈ lastItems found.matchedWords (s.candidates text), slug "_" w = "" := by
      rw [hmade.key_eq]
      exact Search.key_eq_empty_iff _
    refine ⟨hiff, fun hempty => ⟨hslug, hempty ▸ hmade.entry, fun w hw => ?_⟩⟩
    exact hiff.mp hempty w (getLast?_mem_lastItems hmade.pos hw)
  · intro hall
    constructor
    · rintro ⟨found, h, hempty⟩
      exact matchesNoWord_of_suggest hall h hempty
    · intro h
      exact h.exists_suggest hall draws

/-- Two words are matched, one of which has a slug, although there is an entry under the empty
key. -/
theorem suggest_key_eq_empty_iff_like :
    let animals : Grammar String := ⟨.ofList [("main", .literals ["cats"])], "main"⟩
    let d : Dictionary := ⟨.ofList [("", animals), ("like", animals)], []⟩
    let s : Search := .new .all
    s.mode = .all ∧ s.candidates "I like --" = ["I", "like", "--"] ∧
      (d.suggest s "I like --" (Draws.ofWords [])).1 = .ok (some ⟨"like", 2, ["cats"]⟩) ∧
      (¬ ∀ w ∈ lastItems 2 ["I", "like", "--"], slug "_" w = "") ∧
      ¬ d.MatchesNoWord s "I like --" := by
  intro animals d s
  have hwords : animals.words = .ok ["cats"] :=
    Grammar.words_of_literals (show _ = some (Node.literals ["cats"]) by decide +kernel)
  have hcandidates : s.candidates "I like --" = ["I", "like", "--"] := by decide +kernel
  have hfound : (d.suggest s "I like --" (Draws.ofWords [])).1 =
      .ok (some ⟨"like", 2, ["cats"]⟩) := by
    have hentry : d.get? (keyOfLast ["like", "--"] 2) = some animals := by decide +kernel
    have hstops := Stops.found (s := s) hentry hwords (by decide +kernel)
    rw [show keyOfLast ["like", "--"] 2 = "like" by decide +kernel] at hstops
    refine Completes.suggest_eq rfl (.candidates (by decide +kernel) ?_) _
    rw [hcandidates]
    exact .cons (.unknown (by decide +kernel)) (.of_stops_all hstops)
  obtain ⟨hkey, hall⟩ := suggest_key_eq_empty_iff d s "I like --" (Draws.ofWords [])
  have hmatched := (hkey _ hfound).1
  rw [hcandidates] at hmatched
  refine ⟨rfl, hcandidates, hfound, ?_, ?_⟩
  · rw [← hmatched]
    decide
  · rw [← hall rfl]
    rintro ⟨found, h, hempty⟩
    obtain rfl := Option.some.inj (Except.ok.inj (hfound.symm.trans h))
    exact absurd hempty (by decide)

/-- A dictionary with a single entry, under the empty key, suggests it for two dashes at the end of
a text, but not for the dashes alone. -/
theorem dashes_match_no_word :
    let greeting : Grammar String := ⟨.ofList [("main", .literals ["x"])], "main"⟩
    let d : Dictionary := ⟨.ofList [("", greeting)], []⟩
    (∃ found, (d.suggest (.new .all) "a --" (Draws.ofWords [])).1 = .ok (some found) ∧
        found.key = "" ∧ found.matchedWords = 1 ∧ found.completions = ["x"]) ∧
      (d.suggest (.new .all) "--" (Draws.ofWords [])).1 = .ok none := by
  intro greeting d
  have hwords : greeting.words = .ok ["x"] :=
    Grammar.words_of_literals (show _ = some (Node.literals ["x"]) by decide +kernel)
  refine ⟨⟨⟨"", 1, ["x"]⟩, ?_, rfl, rfl, rfl⟩, ?_⟩
  · have hentry : d.get? (keyOfLast ["--"] 1) = some greeting := by decide +kernel
    have hstops := Stops.found (s := .new .all) hentry hwords (by decide +kernel)
    rw [show keyOfLast ["--"] 1 = "" by decide +kernel] at hstops
    refine Completes.suggest_eq rfl (.candidates (by decide +kernel) ?_) _
    rw [show (Search.new .all).candidates "a --" = ["a", "--"] by decide +kernel]
    exact .cons (.unknown (by decide +kernel)) (.of_stops_all hstops)
  · rw [suggest_of_no_slug (by decide +kernel)]

end Dictionary

end Typeahead
