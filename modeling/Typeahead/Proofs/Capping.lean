import Typeahead.Proofs.Lookup

/-! # The limit of a search

A limit counts the phrases of an entry, and an empty phrase is counted although it completes
nothing.  So a key that a search passes over is also passed over under a smaller limit
(`Dictionary.Skips.of_le`), and an error stays an error, but a suggestion may lose completions: it
keeps those among the first phrases, and if all of these are empty its key is passed over as well
(`Dictionary.suggest_of_limit`). -/

namespace Typeahead

/-! ### Filtering the front of a list -/

theorem filter_take_min {α : Type} (p : α → Bool) (l : List α) (n m : ℕ) :
    (l.take (min n m)).filter p = ((l.take m).filter p).take ((l.take n).filter p).length := by
  rcases Nat.le_total n m with h | h
  · have hfront := ((List.take_prefix_take_left h : l.take n <+: l.take m).filter p)
    rw [Nat.min_eq_left h]
    exact List.prefix_iff_eq_take.mp hfront
  · have hfront := ((List.take_prefix_take_left h : l.take m <+: l.take n).filter p)
    rw [Nat.min_eq_right h, List.take_of_length_le hfront.length_le]

theorem take_filter_of_front {α : Type} {p : α → Bool} {l : List α} {n : ℕ}
    (h : ∀ a ∈ l.take n, p a = true) (m : ℕ) :
    ((l.take m).filter p).take ((l.take n).filter p).length = ((l.take m).filter p).take n := by
  have hle := List.length_filter_le p (l.take m)
  rw [List.filter_eq_self.mpr h, List.take_eq_take_iff]
  simp only [List.length_take] at hle ⊢
  omega

/-! ### Searches under a limit -/

/-- The suggestion with its first completions only. -/
def Suggestion.truncate (n : ℕ) (found : Suggestion) : Suggestion :=
  { found with completions := found.completions.take n }

namespace Search

theorem withMaxResults_eq_ok {s t : Search} {maxResults : Option ℕ}
    (h : s.withMaxResults maxResults = .ok t) :
    t.mode = s.mode ∧ t.window = s.window ∧ t.delimiters = s.delimiters ∧
      t.maxResults = min (maxResults.getD unlimited) unlimited := by
  unfold withMaxResults at h
  dsimp only at h
  split_ifs at h with hpos hlt
  · obtain rfl := Except.ok.inj h
    exact ⟨rfl, rfl, rfl, (Nat.min_eq_left (Nat.le_of_lt hlt)).symm⟩
  · obtain rfl := Except.ok.inj h
    exact ⟨rfl, rfl, rfl, (Nat.min_eq_right (Nat.not_lt.mp hlt)).symm⟩

theorem candidates_congr {s t : Search} (hw : t.window = s.window)
    (hd : t.delimiters = s.delimiters) (text : String) : t.candidates text = s.candidates text := by
  unfold candidates
  rw [hw, hd]

end Search

namespace Dictionary

open Search (keyOfLast keyOfLast_cons lastItems lastItems_length lastItems_cons)

variable {d : Dictionary} {s t : Search} {ws : List String} {k : ℕ}
variable {r : Except GrammarError (Option Suggestion)}

/-! ### Keys that are passed over -/

theorem Skips.of_le (hle : t.maxResults ≤ s.maxResults) (h : Skips d s ws k) :
    Skips d t ws k := by
  cases h with
  | unknown h => exact .unknown h
  | blank hg hp hb =>
      refine .blank hg hp ?_
      intro w hw
      exact hb w ((List.take_prefix_take_left hle).subset hw)

theorem Skips.of_cons {w : String} (hk : k ≤ ws.length) (h : Skips d s (w :: ws) k) :
    Skips d s ws k := by
  have hkey := keyOfLast_cons w hk
  cases h with
  | unknown h =>
      rw [hkey] at h
      exact .unknown h
  | blank hg hp hb =>
      rw [hkey] at hg
      exact .blank hg hp hb

/-- If all keys of more than `k` words are passed over, what is found is found for the last `k`
words. -/
theorem Finds.of_last (hk : k ≤ ws.length) (hskips : ∀ j, k < j → j ≤ ws.length → Skips d s ws j)
    (h : Finds d s (lastItems k ws) r) : Finds d s ws r := by
  induction ws with
  | nil => simpa [lastItems] using h
  | cons w ws ih =>
      rcases Nat.lt_or_ge ws.length k with hlt | hge
      · obtain rfl : k = (w :: ws).length := by
          rw [List.length_cons] at hk ⊢
          omega
        rwa [lastItems_length] at h
      · rw [lastItems_cons w hge] at h
        refine Finds.cons (hskips (ws.length + 1) (Nat.lt_succ_of_le hge) (Nat.le_refl _)) ?_
        refine ih hge ?_ h
        intro j hj hle
        exact (hskips j hj (Nat.le_succ_of_le hle)).of_cons hle

/-! ### What is found under a smaller limit -/

theorem Finds.of_le (hle : t.maxResults ≤ s.maxResults) (h : Finds d s ws r)
    (hr : ∀ found, r ≠ .ok (some found)) : Finds d t ws r := by
  cases h with
  | nothing h => exact .nothing fun k hk hkle => (h k hk hkle).of_le hle
  | stops hk hkle hlonger hstops =>
      cases hstops with
      | error hg he =>
          exact .stops hk hkle (fun j hj hjle => (hlonger j hj hjle).of_le hle) (.error hg he)
      | found _ _ _ => exact absurd rfl (hr _)

/-- A suggestion that a search finds for some candidate words in an entry with the given phrases. -/
structure Matches (d : Dictionary) (s : Search) (ws : List String) (found : Suggestion)
    (phrases : List String) : Prop where
  key : found.key = keyOfLast ws found.matchedWords
  lists : d.Lists (keyOfLast ws found.matchedWords) phrases
  pos : 1 ≤ found.matchedWords
  le : found.matchedWords ≤ ws.length
  completions : found.completions = (phrases.take s.maxResults).filter (· ≠ "")
  completes : found.completions ≠ []
  longer : ∀ j, found.matchedWords < j → j ≤ ws.length → Skips d s ws j

theorem Finds.exists_matches {found : Suggestion} (h : Finds d s ws (.ok (some found))) :
    ∃ phrases, Matches d s ws found phrases := by
  obtain ⟨hpos, hle, hlength, -, -⟩ := h.bounds
  have hcompletes : found.completions ≠ [] := List.ne_nil_of_length_pos hlength
  cases h with
  | stops _ _ hlonger hstops =>
      cases hstops with
      | @found g phrases hg hp _ =>
          -- The fields of the suggestion are read off, as `rfl` would compute its key.
          refine ⟨phrases, ?_, ⟨g, hg, hp⟩, hpos, hle, ?_, hcompletes, hlonger⟩
          · dsimp only
          · dsimp only

namespace Matches

variable {found : Suggestion} {phrases : List String} {n : ℕ}
variable (h : Matches d s ws found phrases) (hlimit : t.maxResults = min n s.maxResults)

include h hlimit

/-- Some of the first phrases are not empty: the suggestion keeps as many completions. -/
theorem finds_truncate (hne : ∃ w ∈ phrases.take n, w ≠ "") :
    Finds d t ws
      (.ok (some (found.truncate ((phrases.take n).filter (· ≠ "")).length))) := by
  have hle : t.maxResults ≤ s.maxResults := hlimit ▸ Nat.min_le_right n s.maxResults
  have hkept : (phrases.take t.maxResults).filter (· ≠ "") =
      found.completions.take ((phrases.take n).filter (· ≠ "")).length := by
    rw [hlimit, h.completions]
    exact filter_take_min _ phrases n s.maxResults
  have hstill : ∃ w ∈ phrases.take t.maxResults, w ≠ "" := by
    obtain ⟨w, hw, hwne⟩ := hne
    have hlength : 0 < ((phrases.take n).filter (· ≠ "")).length :=
      List.length_pos_of_mem (List.mem_filter.mpr ⟨hw, by simpa using hwne⟩)
    have hkept_ne : (phrases.take t.maxResults).filter (· ≠ "") ≠ [] := by
      rw [hkept, Ne, List.take_eq_nil_iff, not_or]
      exact ⟨Nat.ne_of_gt hlength, h.completes⟩
    simpa [List.filter_eq_nil_iff] using hkept_ne
  obtain ⟨g, hg, hp⟩ := h.lists
  unfold Suggestion.truncate
  rw [← hkept, h.key]
  exact .stops h.pos h.le (fun j hj hjle => (h.longer j hj hjle).of_le hle) (.found hg hp hstill)

/-- All the first phrases are empty: the search goes on with fewer words. -/
theorem finds_of_blank (hblank : ∀ w ∈ phrases.take n, w = "")
    (hr : Finds d t (lastItems (found.matchedWords - 1) ws) r) : Finds d t ws r := by
  have hle : t.maxResults ≤ s.maxResults := hlimit ▸ Nat.min_le_right n s.maxResults
  have hle' : t.maxResults ≤ n := hlimit ▸ Nat.min_le_left n s.maxResults
  obtain ⟨g, hg, hp⟩ := h.lists
  refine .of_last (Nat.le_trans (Nat.pred_le _) h.le) ?_ hr
  intro j hj hjle
  rcases Nat.eq_or_lt_of_le (Nat.le_of_pred_lt hj) with rfl | hlt
  · exact .blank hg hp fun w hw => hblank w ((List.take_prefix_take_left hle').subset hw)
  · exact (h.longer j hlt hjle).of_le hle

/-- None of the first phrases is empty: the suggestion keeps its first completions. -/
theorem finds_truncate_of_solid (hsolid : ∀ w ∈ phrases.take n, w ≠ "") :
    Finds d t ws (.ok (some (found.truncate n))) := by
  have hn : 0 < n := by
    have hpos := t.maxResults_pos
    omega
  have hphrases : phrases.take n ≠ [] := by
    rw [Ne, List.take_eq_nil_iff, not_or]
    refine ⟨Nat.ne_of_gt hn, ?_⟩
    rintro rfl
    exact h.completes (by simpa using h.completions)
  obtain ⟨w, hw⟩ := List.exists_mem_of_ne_nil _ hphrases
  have hcount : found.truncate ((phrases.take n).filter (· ≠ "")).length = found.truncate n := by
    have hfront := take_filter_of_front (p := (decide <| · ≠ "")) (by simpa using hsolid)
      s.maxResults
    unfold Suggestion.truncate
    rw [h.completions, hfront]
  rw [← hcount]
  exact h.finds_truncate hlimit ⟨w, hw, hsolid w hw⟩

end Matches

/-! ### A limit and none -/

section completes

variable {text : String}

theorem Completes.suggest_eq (hall : s.mode = .all) (h : Completes d s text r) (draws : Draws) :
    (d.suggest s text draws).1 = r :=
  (suggest_completes hall text draws).1.unique h

theorem Completes.of_le (hsame : t.candidates text = s.candidates text)
    (hle : t.maxResults ≤ s.maxResults) (h : Completes d s text r)
    (hr : ∀ found, r ≠ .ok (some found)) : Completes d t text r := by
  cases h with
  | noSlug h => exact .noSlug h
  | candidates h hf =>
      rw [← hsame] at hf
      exact .candidates h (hf.of_le hle hr)

end completes

/-- **What a limit takes away.**  Under a limit a search that finds nothing, or an error, finds the
same.  A suggestion keeps its key and as many completions as there are phrases that are not empty
among the first ones of its entry, up to the limit: the first completions up to the limit, if none
of these phrases is empty.  If all of them are empty, the search goes on with fewer words. -/
theorem suggest_of_limit (d : Dictionary) {s full capped : Search} {n : ℕ} (hall : s.mode = .all)
    (hfull : s.withMaxResults none = .ok full) (hcapped : s.withMaxResults (some n) = .ok capped)
    (text : String) (draws : Draws) :
    let every := (d.suggest full text draws).1
    let first := (d.suggest capped text draws).1
    (every = .ok none → first = .ok none) ∧
      (∀ error, every = .error error → first = .error error) ∧
      ∀ found, every = .ok (some found) → ∃ phrases, d.Lists found.key phrases ∧
        ((∀ w ∈ phrases.take n, w ≠ "") → first = .ok (some (found.truncate n))) ∧
        ((∃ w ∈ phrases.take n, w ≠ "") →
          first = .ok (some (found.truncate ((phrases.take n).filter (· ≠ "")).length))) ∧
        ((∀ w ∈ phrases.take n, w = "") →
          first = (d.suggestFrom capped
            (lastItems (found.matchedWords - 1) (capped.candidates text)) draws).1) := by
  intro every first
  obtain ⟨hmode, hwindow, hdelimiters, hnone⟩ := Search.withMaxResults_eq_ok hfull
  obtain ⟨hmode', hwindow', hdelimiters', hsome⟩ := Search.withMaxResults_eq_ok hcapped
  have hsame : capped.candidates text = full.candidates text :=
    Search.candidates_congr (hwindow'.trans hwindow.symm) (hdelimiters'.trans hdelimiters.symm) text
  have hlimit : capped.maxResults = min n full.maxResults := by
    rw [hsome, hnone]
    simp
  have hle : capped.maxResults ≤ full.maxResults := hlimit ▸ Nat.min_le_right n full.maxResults
  have hevery : Completes d full text every :=
    (suggest_completes (hmode.trans hall) text draws).1
  have hfirst : ∀ {r}, Completes d capped text r → first = r :=
    fun h => h.suggest_eq (hmode'.trans hall) draws
  refine ⟨?_, ?_, ?_⟩
  · intro h
    rw [h] at hevery
    exact hfirst (hevery.of_le hsame hle (by simp))
  · intro error h
    rw [h] at hevery
    exact hfirst (hevery.of_le hsame hle (by simp))
  · intro found h
    rw [h] at hevery
    cases hevery with
    | candidates hslug hf =>
        rw [← hsame] at hf
        obtain ⟨phrases, hm⟩ := hf.exists_matches
        refine ⟨phrases, hm.key ▸ hm.lists, ?_, ?_, ?_⟩
        · intro hsolid
          exact hfirst (.candidates hslug (hm.finds_truncate_of_solid hlimit hsolid))
        · intro hne
          exact hfirst (.candidates hslug (hm.finds_truncate hlimit hne))
        · intro hblank
          obtain ⟨hrest, -⟩ := suggestFrom_finds (d := d) (hmode'.trans hall)
            (lastItems (found.matchedWords - 1) (capped.candidates text)) draws
          exact hfirst (.candidates hslug (hm.finds_of_blank hlimit hblank hrest))

/-- Of the two first phrases one is empty, so that one completion is left of two. -/
theorem suggest_of_limit_two :
    let animals : Grammar String := ⟨.ofList [("main", .literals ["", "cats", "dogs"])], "main"⟩
    let d : Dictionary := ⟨.ofList [("like", animals)], []⟩
    let full : Search := .new .all
    let capped : Search := { full with maxResults := 2, maxResults_pos := by decide }
    (Search.new .all).mode = .all ∧ (Search.new .all).withMaxResults none = .ok full ∧
      (Search.new .all).withMaxResults (some 2) = .ok capped ∧
      (d.suggest full "I like" (Draws.ofWords [])).1 = .ok (some ⟨"like", 1, ["cats", "dogs"]⟩) ∧
      (d.suggest capped "I like" (Draws.ofWords [])).1 = .ok (some ⟨"like", 1, ["cats"]⟩) := by
  intro animals d full capped
  have hmain : animals.branch? "main" = some (.literals ["", "cats", "dogs"]) := by decide +kernel
  have hentry : d.get? (keyOfLast ["like"] 1) = some animals := by decide +kernel
  have hkey : keyOfLast ["like"] 1 = "like" := by decide +kernel
  have hstops : Stops d full ["like"] 1 (.ok (some ⟨"like", 1, ["cats", "dogs"]⟩)) := by
    have hwords := Grammar.words_of_literals hmain
    have hfound := Stops.found (s := full) hentry hwords (by decide +kernel)
    rwa [hkey] at hfound
  have hevery : (d.suggest full "I like" (Draws.ofWords [])).1 =
      .ok (some ⟨"like", 1, ["cats", "dogs"]⟩) := by
    refine Completes.suggest_eq rfl (.candidates (by decide +kernel) ?_) _
    rw [show full.candidates "I like" = ["I", "like"] by decide +kernel]
    exact .cons (.unknown (by decide +kernel)) (.of_stops_all hstops)
  have hfull : (Search.new .all).withMaxResults none = .ok full := rfl
  have hcapped : (Search.new .all).withMaxResults (some 2) = .ok capped := rfl
  obtain ⟨-, -, hfound⟩ := suggest_of_limit d rfl hfull hcapped "I like" (Draws.ofWords [])
  obtain ⟨phrases, hphrases, -, hsome, -⟩ := hfound _ hevery
  rw [hkey] at hentry
  obtain rfl := Lists.unique ⟨animals, hentry, Grammar.words_of_literals hmain⟩ hphrases
  have hfirst := (hsome (by decide)).trans
    (show _ = .ok (some ⟨"like", 1, ["cats"]⟩) by decide +kernel)
  exact ⟨rfl, hfull, hcapped, hevery, hfirst⟩

/-- The first phrase of the only entry is empty, so that nothing is found under a limit of one. -/
theorem limit_loses_suggestion :
    let animals : Grammar String := ⟨.ofList [("main", .literals ["", "cats"])], "main"⟩
    let d : Dictionary := ⟨.ofList [("like", animals)], []⟩
    let full : Search := .new .all
    let capped : Search := { full with maxResults := 1, maxResults_pos := by decide }
    (Search.new .all).withMaxResults none = .ok full ∧
      (Search.new .all).withMaxResults (some 1) = .ok capped ∧
      (d.suggest full "like" (Draws.ofWords [])).1 = .ok (some ⟨"like", 1, ["cats"]⟩) ∧
      (d.suggest capped "like" (Draws.ofWords [])).1 = .ok none := by
  intro animals d full capped
  have hmain : animals.branch? "main" = some (.literals ["", "cats"]) := by decide +kernel
  have hentry : d.get? (keyOfLast ["like"] 1) = some animals := by decide +kernel
  have hwords := Grammar.words_of_literals hmain
  have hslug : slug "_" "like" ≠ "" := by decide +kernel
  have hcandidates : full.candidates "like" = ["like"] := by decide +kernel
  refine ⟨rfl, rfl, ?_, ?_⟩
  · have hfound := Stops.found (s := full) hentry hwords (by decide +kernel)
    rw [show keyOfLast ["like"] 1 = "like" by decide +kernel] at hfound
    refine Completes.suggest_eq rfl (.candidates hslug ?_) _
    rw [hcandidates]
    exact .of_stops_all hfound
  · refine Completes.suggest_eq rfl (.candidates hslug ?_) _
    rw [show capped.candidates "like" = ["like"] from hcandidates]
    exact .cons (.blank hentry hwords (by decide)) (suggestFrom_finds rfl [] (Draws.ofWords [])).1

end Dictionary
end Typeahead
