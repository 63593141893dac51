import Typeahead.Proofs.Sampling
import Typeahead.Service

/-! # Phrases on request

A source is compiled and its grammar expanded before any phrase is made, whether one phrase is drawn
or all are listed and however few are wanted.  So what decides the answer is the list of all phrases
of the source, or the error for which there is none (`Grammar.wordsOf`).  `Service.Expanded` lists
what may then come of a request, and every answer is one of its cases (`Service.expanded_expand`).
A list of phrases is never empty, as something can always be drawn from it. -/

namespace Typeahead

namespace Grammar

/-- All phrases of a source, or the error for which it cannot be compiled or expanded. -/
def wordsOf (source : Json) : Except GrammarError (List String) := do (← compile source).words

variable {g : Grammar String} {ws : List String} {error : GrammarError}

theorem words_ne_nil (h : g.words = .ok ws) : ws ≠ [] := by
  obtain ⟨w, hw, -⟩ := exists_sample_of_words h (.ofWords [])
  exact List.ne_nil_of_mem hw

theorem wordsOf_ne_nil {source : Json} (h : wordsOf source = .ok ws) : ws ≠ [] := by
  obtain ⟨g, -, hwords⟩ := bind_eq_ok_iff.mp h
  exact words_ne_nil hwords

end Grammar

namespace Request

/-- The request asks for phrases of a source: of a script in its query, or of what stands in its
body. -/
inductive AsksToExpand : Request → ExpandParameters → Prop
  | script {query : List (String × String)} {body : Option Json} {p : ExpandParameters}
      (h : expandQuery? query = some p) : AsksToExpand ⟨"GET", "/v1/expand", query, body⟩ p
  | source {query : List (String × String)} {value : Json} {p : ExpandParameters}
      (h : expandBody? value = some p) :
      AsksToExpand ⟨"POST", "/v1/expand", query, some value⟩ p

/-- The mode that is asked for: all phrases are listed unless one is to be drawn. -/
def ExpandParameters.wanted (p : ExpandParameters) : Mode := p.mode.getD .all

end Request

namespace Service

open Grammar (wordsOf)
open Request (AsksToExpand ExpandParameters)

variable {draws draws' : Draws} {site site' : Site} {r r' : Request} {p q : ExpandParameters}
variable {g : Grammar String} {ws : List String} {error : GrammarError} {answer : Answer}

/-! ### The phrases that are wanted -/

theorem phrases_of_error (h : g.words = .error error) (draws : Draws) (mode : Mode)
    (limit : Option ℕ) : phrases draws g mode limit = .error error := by
  unfold phrases
  cases mode with
  | one => rw [Grammar.sample_of_error h]; rfl
  | all =>
      cases limit with
      | none => exact h
      | some limit => exact Grammar.firstWords_of_error h limit

theorem phrases_all (h : g.words = .ok ws) (draws : Draws) (limit : Option ℕ) :
    phrases draws g .all limit = .ok (ws.take (limit.getD ws.length)) := by
  unfold phrases
  cases limit with
  | none => simp [h]
  | some limit => exact Grammar.firstWords_of_ok h limit

theorem phrases_one (h : g.words = .ok ws) (draws : Draws) (limit : Option ℕ) :
    ∃ w ∈ ws, phrases draws g .one limit = .ok [w] := by
  obtain ⟨w, hw, draws', hsample⟩ := Grammar.exists_sample_of_words h draws
  refine ⟨w, hw, ?_⟩
  unfold phrases
  rw [hsample]
  rfl

/-! ### Answers -/

/-- What comes of asking for phrases. -/
inductive Expanded (p : ExpandParameters) : Answer → Prop
  | refused (h : p.maxResults = some 0) : Expanded p (.refused .zeroResults)
  | rejected {error : GrammarError} (h : p.maxResults ≠ some 0)
      (hwords : wordsOf p.source = .error error) : Expanded p (.rejected error)
  | listed {ws : List String} (h : p.maxResults ≠ some 0) (hall : p.wanted = .all)
      (hwords : wordsOf p.source = .ok ws) :
      Expanded p (.texts (ws.take (p.maxResults.getD ws.length)))
  | drawn {ws : List String} {w : String} (h : p.maxResults ≠ some 0) (hone : p.wanted = .one)
      (hwords : wordsOf p.source = .ok ws) (hw : w ∈ ws) : Expanded p (.texts [w])

/-- The source is compiled and expanded in the same way for every mode and limit. -/
theorem expanded_expand (draws : Draws) (p : ExpandParameters) : Expanded p (expand draws p) := by
  unfold expand
  split_ifs with hzero
  · exact .refused hzero
  cases hcompile : Grammar.compile p.source with
  | error error => exact .rejected hzero (by rw [wordsOf, hcompile]; rfl)
  | ok g =>
      have hof : wordsOf p.source = g.words := by rw [wordsOf, hcompile]; rfl
      have hwanted : p.mode.getD .all = p.wanted := rfl
      simp only [bind, Except.bind, hwanted]
      cases hwords : g.words with
      | error error =>
          rw [phrases_of_error hwords]
          exact .rejected hzero (hof.trans hwords)
      | ok ws =>
          cases hmode : p.wanted with
          | one =>
              obtain ⟨w, hw, hphrases⟩ := phrases_one hwords draws p.maxResults
              rw [hphrases]
              exact .drawn hzero hmode (hof.trans hwords) hw
          | all =>
              rw [phrases_all hwords]
              exact .listed hzero hmode (hof.trans hwords)

theorem handle_expand (h : r.AsksToExpand p) (draws : Draws) (site : Site) :
    handle draws site r = (expand draws p, site) := by
  cases h with
  | script h =>
      unfold handle
      dsimp only
      rw [h]
      rfl
  | source h =>
      unfold handle
      dsimp only
      rw [Option.bind_some, h]
      rfl

namespace Expanded

theorem of_zero (h : Expanded p answer) (hzero : p.maxResults = some 0) :
    answer = .refused .zeroResults := by
  cases h with
  | refused => rfl
  | rejected hsome => exact absurd hzero hsome
  | listed hsome => exact absurd hzero hsome
  | drawn hsome => exact absurd hzero hsome

theorem of_error (h : Expanded p answer) (hsome : p.maxResults ≠ some 0)
    (herror : wordsOf p.source = .error error) : answer = .rejected error := by
  cases h with
  | refused hzero => exact absurd hzero hsome
  | rejected _ hwords => rw [Except.error.inj (hwords.symm.trans herror)]
  | listed _ _ hwords => cases hwords.symm.trans herror
  | drawn _ _ hwords => cases hwords.symm.trans herror

theorem of_all (h : Expanded p answer) (hsome : p.maxResults ≠ some 0) (hall : p.wanted = .all)
    (hok : wordsOf p.source = .ok ws) :
    answer = .texts (ws.take (p.maxResults.getD ws.length)) := by
  cases h with
  | refused hzero => exact absurd hzero hsome
  | rejected _ hwords => cases hwords.symm.trans hok
  | listed _ _ hwords => rw [Except.ok.inj (hwords.symm.trans hok)]
  | drawn _ hone => cases hone.symm.trans hall

theorem of_one (h : Expanded p answer) (hsome : p.maxResults ≠ some 0) (hone : p.wanted = .one)
    (hok : wordsOf p.source = .ok ws) : ∃ w ∈ ws, answer = .texts [w] := by
  cases h with
  | refused hzero => exact absurd hzero hsome
  | rejected _ hwords => cases hwords.symm.trans hok
  | listed _ hall => cases hone.symm.trans hall
  | drawn _ _ hwords hw => exact ⟨_, Except.ok.inj (hwords.symm.trans hok) ▸ hw, rfl⟩

theorem status_eq (h : Expanded p answer) :
    answer.status =
      if p.maxResults = some 0 then 400
      else match wordsOf p.source with
        | .ok _ => 200
        | .error _ => 422 := by
  cases h with
  | refused hzero => rw [if_pos hzero]; rfl
  | rejected hsome hwords => rw [if_neg hsome, hwords]; rfl
  | listed hsome _ hwords => rw [if_neg hsome, hwords]; rfl
  | drawn hsome _ hwords => rw [if_neg hsome, hwords]; rfl

theorem status_iff (h : Expanded p answer) :
    (answer.status = 400 ↔ p.maxResults = some 0) ∧
      (answer.status = 422 ↔ p.maxResults ≠ some 0 ∧ ∃ error, wordsOf p.source = .error error) ∧
      (answer.status = 200 ↔ p.maxResults ≠ some 0 ∧ ∃ ws, wordsOf p.source = .ok ws) := by
  rw [h.status_eq]
  by_cases hzero : p.maxResults = some 0
  · simp [hzero]
  · cases wordsOf p.source <;> simp [hzero]

theorem exists_texts (h : Expanded p answer) (hsome : p.maxResults ≠ some 0)
    (hok : wordsOf p.source = .ok ws) :
    ∃ texts, answer = .texts texts ∧ texts ≠ [] ∧
      (p.wanted = .all → texts = ws.take (p.maxResults.getD ws.length)) ∧
      (p.wanted = .one → ∃ w ∈ ws, texts = [w]) := by
  cases hmode : p.wanted with
  | one =>
      obtain ⟨w, hw, rfl⟩ := h.of_one hsome hmode hok
      exact ⟨[w], rfl, List.cons_ne_nil w [], nofun, fun _ => ⟨w, hw, rfl⟩⟩
  | all =>
      refine ⟨_, h.of_all hsome hmode hok, ?_, fun _ => rfl, nofun⟩
      have hne := Grammar.wordsOf_ne_nil hok
      cases hlimit : p.maxResults with
      | none => simpa using hne
      | some limit =>
          rw [hlimit, Ne, Option.some.injEq] at hsome
          simp [hsome, hne]

theorem eq_of_error {answer' : Answer} (h : Expanded p answer) (h' : Expanded q answer')
    (hsource : q.source = p.source) (hsome : q.maxResults ≠ some 0)
    (hstatus : answer.status = 422) : answer' = answer := by
  obtain ⟨hsome', error, herror⟩ := h.status_iff.2.1.mp hstatus
  rw [h.of_error hsome' herror, h'.of_error hsome (hsource ▸ herror)]

theorem eq_of_all {answer' : Answer} (h : Expanded p answer) (h' : Expanded q answer')
    (hsource : q.source = p.source) (hlimit : q.maxResults = p.maxResults)
    (hall : p.wanted = .all) (hall' : q.wanted = .all) : answer' = answer := by
  by_cases hzero : p.maxResults = some 0
  · rw [h.of_zero hzero, h'.of_zero (hlimit.trans hzero)]
  have hsome : q.maxResults ≠ some 0 := hlimit ▸ hzero
  cases hwords : wordsOf p.source with
  | error error => rw [h.of_error hzero hwords, h'.of_error hsome (hsource ▸ hwords)]
  | ok ws => rw [h.of_all hzero hall hwords, h'.of_all hsome hall' (hsource ▸ hwords), hlimit]

end Expanded

/-- **Mode and limit do not decide whether a source is expanded.**  A request for phrases is refused
if its limit is zero.  Otherwise it fails, with the message of the error, exactly if its source
cannot be compiled or its phrases cannot be listed, and then so does every other request for that
source.  If it does not fail, some phrases are answered: one of all phrases if one is to be drawn,
and else those that come first, up to the limit.  Where all are listed, it does not matter in which
of the two ways a source is sent, nor what can be drawn. -/
theorem expand_answers (h : r.AsksToExpand p) (draws : Draws) (site : Site) :
    let answer := (handle draws site r).1
    (handle draws site r).2 = site ∧
      (answer.status = 400 ↔ p.maxResults = some 0) ∧
      (answer.status = 422 ↔ p.maxResults ≠ some 0 ∧ ∃ error, wordsOf p.source = .error error) ∧
      (answer.status = 200 ↔ p.maxResults ≠ some 0 ∧ ∃ ws, wordsOf p.source = .ok ws) ∧
      (∀ error, wordsOf p.source = .error error → answer.status = 422 →
        answer.body = .text error.message) ∧
      (∀ ws, wordsOf p.source = .ok ws → answer.status = 200 →
        ∃ texts, answer.body = .json (.ofTexts texts) ∧ texts ≠ [] ∧
          (p.wanted = .all → texts = ws.take (p.maxResults.getD ws.length)) ∧
          (p.wanted = .one → ∃ w ∈ ws, texts = [w])) ∧
      ∀ r' q draws' site', r'.AsksToExpand q → q.source = p.source →
        (q.maxResults ≠ some 0 → answer.status = 422 → (handle draws' site' r').1 = answer) ∧
        (q.maxResults = p.maxResults → p.wanted = .all → q.wanted = .all →
          (handle draws' site' r').1 = answer) := by
  intro answer
  have hanswer : Expanded p answer := by
    unfold answer
    rw [handle_expand h]
    exact expanded_expand draws p
  obtain ⟨hrefused, hfails, hlists⟩ := hanswer.status_iff
  refine ⟨by rw [handle_expand h], hrefused, hfails, hlists, ?_, ?_, ?_⟩
  · intro error herror hstatus
    rw [hanswer.of_error (hfails.mp hstatus).1 herror]
    rfl
  · intro ws hok hstatus
    obtain ⟨texts, htexts, hrest⟩ := hanswer.exists_texts (hlists.mp hstatus).1 hok
    exact ⟨texts, by rw [htexts]; rfl, hrest⟩
  · intro r' q draws' site' h' hsource
    rw [handle_expand h']
    have hanswer' := expanded_expand draws' q
    exact ⟨hanswer.eq_of_error hanswer' hsource, hanswer.eq_of_all hanswer' hsource⟩

/-- A script with an open group fails in the same way, whether one phrase is to be drawn or three
are to be listed. -/
theorem expand_answers_open_group :
    let get (script : String) (mode : String) : Request :=
      ⟨"GET", "/v1/expand", [("script", script), ("mode", mode)], none⟩
    let post (script : String) (limit : String) : Request :=
      ⟨"POST", "/v1/expand", [], some (.object [("max_results", .number limit),
        ("mode", .text "all"), ("source", .text script)])⟩
    let drawn : ExpandParameters := ⟨.text "(a", some .one, none⟩
    let listed : ExpandParameters := ⟨.text "(a", some .all, some 3⟩
    (get "(a" "one").AsksToExpand drawn ∧ (post "(a" "3").AsksToExpand listed ∧
      ∀ draws draws' site site',
        (handle draws site (get "(a" "one")).1.status = 422 ∧
          (handle draws' site' (post "(a" "3")).1 = (handle draws site (get "(a" "one")).1 := by
  intro get post drawn listed
  have hget : (get "(a" "one").AsksToExpand drawn := .script (by rfl)
  have hpost : (post "(a" "3").AsksToExpand listed := .source (by rfl)
  have herror : wordsOf drawn.source = .error (.script ⟨0, .unclosed⟩) := by rfl
  refine ⟨hget, hpost, ?_⟩
  intro draws draws' site site'
  obtain ⟨-, -, hfails, -, -, -, halike⟩ := expand_answers hget draws site
  have hstatus := hfails.mpr ⟨by simp [drawn], _, herror⟩
  exact ⟨hstatus, (halike _ listed draws' site' hpost rfl).1 (by simp [listed]) hstatus⟩

end Service
end Typeahead
