import Typeahead.Proofs.Capping
import Typeahead.Proofs.Sampling

/-! # One completion and all of them

A search that draws one completion and a search that lists them all look up the same keys.  They go
on from a key for different reasons, though: the one because the phrase it drew is empty, the other
because all phrases are.  Where the phrases of every entry are all empty or all not empty
(`Dictionary.Uniform`), these reasons are the same, so that the two searches stay in step for any
stream of words (`Dictionary.suggestFrom_agrees`).  In every dictionary, what is drawn is one of the
phrases of the entry (`Dictionary.Drawn`). -/

namespace Typeahead

namespace Dictionary

variable {d : Dictionary} {s one all : Search} {ws : List String} {w : String}
variable {g : Grammar String}

/-! ### Searches that draw -/

theorem completions_one (hone : s.mode = .one) (g : Grammar String) (draws : Draws) :
    completions s g draws =
      ((fun v => [v]) <$> (g.sample draws).1, (g.sample draws).2) := by
  unfold completions
  rw [hone]
  rfl

theorem suggestFrom_of_error {error : GrammarError}
    (hg : d.get? (Search.key (w :: ws)) = some g) (he : g.words = .error error) (draws : Draws) :
    d.suggestFrom s (w :: ws) draws = (.error error, draws) := by
  have hcompletions : completions s g draws = (.error error, draws) := by
    cases hmode : s.mode with
    | one =>
        rw [completions_one hmode, Grammar.sample_of_error he]
        rfl
    | all => rw [completions_all hmode, Grammar.firstWords_of_error he]
  rw [suggestFrom_of_some hg, hcompletions]

/-- A search that draws goes on from a key if the phrase that it drew is empty. -/
theorem suggestFrom_of_sample {phrases : List String} (hone : s.mode = .one)
    (hg : d.get? (Search.key (w :: ws)) = some g) (hp : g.words = .ok phrases) (draws : Draws) :
    ∃ v ∈ phrases, ∃ draws', d.suggestFrom s (w :: ws) draws =
      if v = "" then d.suggestFrom s ws draws'
      else (.ok (some ⟨Search.key (w :: ws), ws.length + 1, [v]⟩), draws') := by
  obtain ⟨v, hv, draws', hsample⟩ := Grammar.exists_sample_of_words hp draws
  refine ⟨v, hv, draws', ?_⟩
  rw [suggestFrom_of_some hg, completions_one hone, hsample]
  by_cases hblank : v = ""
  · simp [hblank]
  · simp [hblank]

theorem suggestFrom_of_list {phrases : List String} (hall : s.mode = .all)
    (hg : d.get? (Search.key (w :: ws)) = some g) (hp : g.words = .ok phrases) (draws : Draws) :
    d.suggestFrom s (w :: ws) draws =
      if (phrases.take s.maxResults).filter (· ≠ "") = [] then d.suggestFrom s ws draws
      else (.ok (some ⟨Search.key (w :: ws), ws.length + 1,
        (phrases.take s.maxResults).filter (· ≠ "")⟩), draws) := by
  rw [suggestFrom_of_some hg, completions_all hall, Grammar.firstWords_of_ok hp]

theorem suggest_of_no_slug {text : String} (h : slug "_" text = "") (draws : Draws) :
    d.suggest s text draws = (.ok none, draws) := by
  unfold suggest
  rw [if_pos h]
  rfl

theorem suggest_of_slug {text : String} (h : slug "_" text ≠ "") (draws : Draws) :
    d.suggest s text draws = d.suggestFrom s (s.candidates text) draws := by
  unfold suggest
  rw [if_neg h]

/-! ### What is drawn -/

/-- The only completion of the suggestion is a phrase of its entry that is not empty. -/
def Drawn (d : Dictionary) (found : Suggestion) : Prop :=
  ∃ phrases, d.Lists found.key phrases ∧ ∃ v ∈ phrases, v ≠ "" ∧ found.completions = [v]

theorem drawn_of_suggestFrom (hone : s.mode = .one) {found : Suggestion} :
    ∀ {ws : List String} {draws : Draws},
      (d.suggestFrom s ws draws).1 = .ok (some found) → d.Drawn found
  | [], draws, h => by
      have hnone : (d.suggestFrom s [] draws).1 = .ok none := rfl
      rw [hnone] at h
      cases h
  | w :: ws, draws, h => by
      cases hg : d.get? (Search.key (w :: ws)) with
      | none =>
          rw [suggestFrom_of_none hg] at h
          exact drawn_of_suggestFrom hone h
      | some g =>
          cases hp : g.words with
          | error error =>
              rw [suggestFrom_of_error hg hp] at h
              cases h
          | ok phrases =>
              obtain ⟨v, hv, draws', hnext⟩ := suggestFrom_of_sample hone hg hp draws
              rw [hnext] at h
              split_ifs at h with hblank
              · exact drawn_of_suggestFrom hone h
              · obtain rfl := Option.some.inj (Except.ok.inj h)
                exact ⟨phrases, ⟨g, hg, hp⟩, v, hv, hblank, rfl⟩

theorem drawn_of_suggest (hone : s.mode = .one) {text : String} {draws : Draws}
    {found : Suggestion} (h : (d.suggest s text draws).1 = .ok (some found)) : d.Drawn found := by
  by_cases hslug : slug "_" text = ""
  · rw [suggest_of_no_slug hslug] at h
    cases h
  · rw [suggest_of_slug hslug] at h
    exact drawn_of_suggestFrom hone h

/-! ### Searches in step -/

/-- The phrases of every entry that can be listed are all empty or all not empty. -/
def Uniform (d : Dictionary) : Prop :=
  ∀ key phrases, d.Lists key phrases → (∀ w ∈ phrases, w ≠ "") ∨ ∀ w ∈ phrases, w = ""

/-- What a search that draws finds, beside what a search finds that lists as many phrases as the
limit allows, in entries without empty phrases. -/
inductive Agrees (d : Dictionary) (limit : ℕ) :
    Except GrammarError (Option Suggestion) → Except GrammarError (Option Suggestion) → Prop
  | nothing : Agrees d limit (.ok none) (.ok none)
  | error (error : GrammarError) : Agrees d limit (.error error) (.error error)
  | found {key v : String} {k : ℕ} {phrases : List String} (hlists : d.Lists key phrases)
      (hv : v ∈ phrases) :
      Agrees d limit (.ok (some ⟨key, k, [v]⟩)) (.ok (some ⟨key, k, phrases.take limit⟩))

/-- In a dictionary of uniform entries, drawing and listing stay in step. -/
theorem suggestFrom_agrees (hd : d.Uniform) (hone : one.mode = .one) (hall : all.mode = .all)
    (ws : List String) (draws draws' : Draws) :
    Agrees d all.maxResults (d.suggestFrom one ws draws).1 (d.suggestFrom all ws draws').1 := by
  induction ws generalizing draws with
  | nil => exact .nothing
  | cons w ws ih =>
      cases hg : d.get? (Search.key (w :: ws)) with
      | none =>
          rw [suggestFrom_of_none hg, suggestFrom_of_none hg]
          exact ih draws
      | some g =>
          cases hp : g.words with
          | error error =>
              rw [suggestFrom_of_error hg hp, suggestFrom_of_error hg hp]
              exact .error error
          | ok phrases =>
              obtain ⟨v, hv, draws₁, hnext⟩ := suggestFrom_of_sample hone hg hp draws
              rw [hnext, suggestFrom_of_list hall hg hp]
              rcases hd _ phrases ⟨g, hg, hp⟩ with hsolid | hblank
              · have hkept : (phrases.take all.maxResults).filter (· ≠ "") =
                    phrases.take all.maxResults := by
                  rw [List.filter_eq_self]
                  intro u hu
                  simpa using hsolid u (List.mem_of_mem_take hu)
                have hlist : phrases.take all.maxResults ≠ [] := by
                  rw [Ne, List.take_eq_nil_iff, not_or]
                  exact ⟨Nat.ne_of_gt all.maxResults_pos, List.ne_nil_of_mem hv⟩
                rw [hkept, if_neg (hsolid v hv), if_neg hlist]
                exact .found ⟨g, hg, hp⟩ hv
              · have hlist : (phrases.take all.maxResults).filter (· ≠ "") = [] := by
                  rw [List.filter_eq_nil_iff]
                  intro u hu
                  simpa using hblank u (List.mem_of_mem_take hu)
                rw [if_pos (hblank v hv), if_pos hlist]
                exact ih draws₁

theorem suggest_agrees (hd : d.Uniform) (hone : one.mode = .one) (hall : all.mode = .all)
    {text : String} (hsame : all.candidates text = one.candidates text) (draws draws' : Draws) :
    Agrees d all.maxResults (d.suggest one text draws).1 (d.suggest all text draws').1 := by
  by_cases hslug : slug "_" text = ""
  · rw [suggest_of_no_slug hslug, suggest_of_no_slug hslug]
    exact .nothing
  · rw [suggest_of_slug hslug, suggest_of_slug hslug, hsame]
    exact suggestFrom_agrees hd hone hall _ draws draws'

section agrees

variable {limit : ℕ} {r r' : Except GrammarError (Option Suggestion)}

theorem Agrees.nothing_iff (h : Agrees d limit r r') : r = .ok none ↔ r' = .ok none := by
  cases h <;> simp

theorem Agrees.error_iff (h : Agrees d limit r r') (error : GrammarError) :
    r = .error error ↔ r' = .error error := by
  cases h <;> simp

theorem Agrees.exists_listed {found : Suggestion} (h : Agrees d limit (.ok (some found)) r') :
    ∃ full, r' = .ok (some full) ∧ full.key = found.key ∧
      full.matchedWords = found.matchedWords ∧
      (full.completions.length < limit → ∀ v ∈ found.completions, v ∈ full.completions) := by
  cases h with
  | @found key v k phrases hlists hv =>
      refine ⟨_, rfl, rfl, rfl, ?_⟩
      intro hlength u hu
      obtain rfl := List.mem_singleton.mp hu
      -- A list that ends before the limit holds all phrases.
      have hle : phrases.length ≤ limit := by
        rw [List.length_take] at hlength
        omega
      rwa [List.take_of_length_le hle]

end agrees

/-- **Drawing one completion and listing all agree.**  What a search that draws suggests is one
phrase of the entry of its key, and not an empty one.  If the phrases of every entry are all empty
or all not empty, then for any words of the stream it finds nothing exactly if the search finds
nothing that lists all phrases, fails with the same errors, and otherwise finds the same key, with a
completion among those that are listed; no list is as long as `Search.unlimited`. -/
theorem suggest_one_agrees (d : Dictionary) {one all : Search} (hone : one.mode = .one)
    (hall : (one.withMode .all).withMaxResults none = .ok all) (text : String)
    (draws draws' : Draws) :
    let drawn := (d.suggest one text draws).1
    let listed := (d.suggest all text draws').1
    (∀ found, drawn = .ok (some found) → d.Drawn found) ∧
      (d.Uniform →
        (drawn = .ok none ↔ listed = .ok none) ∧
          (∀ error, drawn = .error error ↔ listed = .error error) ∧
          ∀ found, drawn = .ok (some found) → ∃ full, listed = .ok (some full) ∧
            full.key = found.key ∧ full.matchedWords = found.matchedWords ∧
            (full.completions.length < Search.unlimited →
              ∀ v ∈ found.completions, v ∈ full.completions)) := by
  intro drawn listed
  obtain ⟨hmode, hwindow, hdelimiters, hlimit⟩ := Search.withMaxResults_eq_ok hall
  have hsame : all.candidates text = one.candidates text :=
    Search.candidates_congr hwindow hdelimiters text
  refine ⟨fun found => drawn_of_suggest hone, ?_⟩
  intro hd
  rw [Option.getD_none, Nat.min_self] at hlimit
  have hagrees : Agrees d Search.unlimited drawn listed :=
    hlimit ▸ suggest_agrees hd hone hmode hsame draws draws'
  refine ⟨hagrees.nothing_iff, hagrees.error_iff, ?_⟩
  intro found hfound
  rw [hfound] at hagrees
  exact hagrees.exists_listed

/-- The key of both words has only an empty phrase, so that both searches go on from it to the key
of the last word. -/
theorem suggest_one_agrees_like :
    let silent : Grammar String := ⟨.ofList [("main", .literals [""])], "main"⟩
    let animals : Grammar String := ⟨.ofList [("main", .literals ["cats", "dogs"])], "main"⟩
    let d : Dictionary := ⟨.ofList [("i_like", silent), ("like", animals)], []⟩
    let one : Search := .new .one
    let all : Search := .new .all
    let draws : Draws := .ofWords [7]
    one.mode = .one ∧ (one.withMode .all).withMaxResults none = .ok all ∧ d.Uniform ∧
      (d.suggest all "I like" draws).1 = .ok (some ⟨"like", 1, ["cats", "dogs"]⟩) ∧
      ∃ found, (d.suggest one "I like" draws).1 = .ok (some found) ∧
        found.key = "like" ∧ found.matchedWords = 1 ∧
        ∀ v ∈ found.completions, v ∈ ["cats", "dogs"] := by
  intro silent animals d one all draws
  have hsilent : silent.words = .ok [""] :=
    Grammar.words_of_literals (show _ = some (Node.literals [""]) by decide +kernel)
  have hanimals : animals.words = .ok ["cats", "dogs"] :=
    Grammar.words_of_literals (show _ = some (Node.literals ["cats", "dogs"]) by decide +kernel)
  have hlists : ∀ key phrases, d.Lists key phrases →
      phrases = [""] ∨ phrases = ["cats", "dogs"] := by
    rintro key phrases ⟨g, hg, hp⟩
    have hentries : d.entries.entries = [("i_like", silent), ("like", animals)] := by
      decide +kernel
    have hmem := (Table.mem_entries (t := d.entries) (e := (key, g))).mpr hg
    rw [hentries] at hmem
    simp only [List.mem_cons, Prod.mk.injEq, List.not_mem_nil, or_false] at hmem
    rcases hmem with ⟨-, rfl⟩ | ⟨-, rfl⟩
    · exact .inl (Except.ok.inj (hp.symm.trans hsilent))
    · exact .inr (Except.ok.inj (hp.symm.trans hanimals))
  have huniform : d.Uniform := by
    intro key phrases h
    rcases hlists key phrases h with rfl | rfl
    · exact .inr (by decide)
    · exact .inl (by decide)
  have hlisted : (d.suggest all "I like" draws).1 =
      .ok (some ⟨"like", 1, ["cats", "dogs"]⟩) := by
    have hentry : d.get? (Search.keyOfLast ["like"] 1) = some animals := by decide +kernel
    have hstops := Stops.found (s := all) hentry hanimals (by decide +kernel)
    rw [show Search.keyOfLast ["like"] 1 = "like" by decide +kernel] at hstops
    refine Completes.suggest_eq rfl (.candidates (by decide +kernel) ?_) _
    rw [show all.candidates "I like" = ["I", "like"] by decide +kernel]
    exact .cons (.blank (by decide +kernel) hsilent (by decide +kernel)) (.of_stops_all hstops)
  have hone : one.mode = .one := rfl
  have hall : (one.withMode .all).withMaxResults none = .ok all := rfl
  obtain ⟨-, hagrees⟩ := suggest_one_agrees d hone hall "I like" draws draws
  obtain ⟨hnothing, herror, hfound⟩ := hagrees huniform
  cases hdrawn : (d.suggest one "I like" draws).1 with
  | error error =>
      have hsame := (herror error).mp hdrawn
      rw [hlisted] at hsame
      cases hsame
  | ok result =>
      cases result with
      | none =>
          have hsame := hnothing.mp hdrawn
          rw [hlisted] at hsame
          cases hsame
      | some found =>
          obtain ⟨full, hfull, hkey, hwords, hmem⟩ := hfound found hdrawn
          obtain rfl := Option.some.inj (Except.ok.inj (hlisted.symm.trans hfull))
          exact ⟨hone, hall, huniform, hlisted, found, rfl, hkey.symm, hwords.symm,
            hmem (by decide)⟩

end Dictionary
end Typeahead
