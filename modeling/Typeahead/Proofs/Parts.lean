import Typeahead.Proofs.Drafting

/-! # Phrases of parts and scripts

The phrases of a list of parts are defined part by part, without any branches (`Part.phrases`).  A
draft keeps them up while parts are pushed onto it (`Draft.Phrased.push`), so the grammar of a list
of parts expands and has these phrases (`expandBranch_ofParts`), and a script expands exactly when
it can be split into parts. -/

namespace Typeahead

open Node (Means)
open Expansion (heads)

variable {σ : Type}

/-- What the phrases so far become when a part follows them.  A literal is added to each phrase; a
group puts each of its alternatives after each phrase, and counts as one empty alternative if it has
none. -/
def Part.follow (found : List String) : Part → List String
  | .literal text => found.map (· ++ text)
  | .group alternatives => found.flatMap fun phrase => (heads alternatives).map (phrase ++ ·)

/-- The phrases of a list of parts, in order: one alternative of each part, the last part varying
fastest. -/
def Part.phrases (parts : List Part) : List String := parts.foldl Part.follow [""]

namespace Draft

variable {script : σ → List String → Prop} {d : Draft σ} {ws : List String}

/-- The phrases of the draft so far are `ws`, and the name of the main branch is still free. -/
structure Phrased (script : σ → List String → Prop) (d : Draft σ) (ws : List String) : Prop where
  means : Means d.stock.branches script d.main ws
  free : d.stock.branches.get? Grammar.mainBranch = none

theorem phrased_empty : Phrased script (empty : Draft σ) [""] where
  means := Node.means_literals []
  free := rfl

theorem Phrased.append {tail : Node σ} {vs : List String} (h : Phrased script d ws)
    (ht : Means d.stock.branches script tail vs) : Phrased script (d.append tail) (product ws vs) where
  means := Stock.means_append ht h.means
  free := (Stock.grows_append tail d.main d.stock).get?_main h.free

theorem means_group (alternatives : List String) :
    let r := Stock.add "group" (Node.literals alternatives) d.stock
    Means r.2.branches script (Node.reference r.1 .nothing) (heads alternatives) := by
  intro r
  have hf : Node.Follows r.2.branches script (Node.reference r.1 .nothing)
      (heads alternatives ++ []) :=
    .reference (Stock.get?_added _ _ _) (Node.means_literals alternatives) .nothing .nil
  rw [List.append_nil] at hf
  exact Node.means_single rfl hf

/-- A part that is pushed follows all phrases so far. -/
theorem Phrased.push (h : Phrased script d ws) (part : Part) :
    Phrased script (d.push part) (part.follow ws) := by
  cases part with
  | literal text =>
      have htext : Means d.stock.branches script [.literal text] [text] :=
        Node.means_literals [text]
      by_cases hmain : d.main = []
      · -- Only the empty phrase has been found so far, and the literal takes its place.
        obtain rfl : ws = [""] := by
          have hm := h.means
          rw [hmain] at hm
          cases hm with
          | terminal => rfl
          | branching hn => exact absurd rfl hn
        rw [Draft.push, if_pos hmain]
        exact ⟨by simpa [Part.follow] using htext, h.free⟩
      · rw [Draft.push, if_neg hmain, Part.follow, ← product_singleton_right]
        exact h.append htext
  | group alternatives =>
      have hgrows := Stock.Grows.refl.add (s := d.stock) "group" (Node.literals alternatives)
      have hgroup : Phrased script
          { d with stock := (Stock.add "group" (Node.literals alternatives) d.stock).2 } ws :=
        ⟨h.means.kept hgrows.kept, hgrows.get?_main h.free⟩
      exact hgroup.append (means_group alternatives)

theorem phrased_foldl (h : Phrased script d ws) (parts : List Part) :
    Phrased script (parts.foldl Draft.push d) (parts.foldl Part.follow ws) := by
  induction parts generalizing d ws with
  | nil => exact h
  | cons part parts ih =>
      rw [List.foldl_cons, List.foldl_cons]
      exact ih (h.push part)

theorem phrased_ofParts (parts : List Part) :
    Phrased script (ofParts parts) (Part.phrases parts) :=
  phrased_foldl phrased_empty parts

theorem branch?_grammar_main (d : Draft σ) : d.grammar.branch? Grammar.mainBranch = some d.main := by
  unfold Grammar.branch? Draft.grammar
  rw [Table.get?_insert, if_pos rfl]

theorem Phrased.kept_grammar (h : Phrased script d ws) :
    d.stock.branches.Kept d.grammar.branches := by
  intro name node hb
  have hne : name ≠ Grammar.mainBranch := by
    rintro rfl
    rw [h.free] at hb
    cases hb
  unfold Draft.grammar
  rw [Table.get?_insert, if_neg hne, hb]

end Draft

namespace Grammar

/-! ### Expansion of parts and of scripts -/

/-- The grammar of a list of parts expands and has the phrases of the parts. -/
theorem expandBranch_ofParts (script : σ → Except GrammarError Expansion) (parts : List Part) :
    ∃ e, expandBranch script (ofParts parts) [] mainBranch = .ok e ∧
      e.words = Part.phrases parts := by
  have h : Draft.Phrased (fun text ws => ∃ e, script text = .ok e ∧ e.words = ws)
      (Draft.ofParts parts) (Part.phrases parts) := Draft.phrased_ofParts parts
  exact expandBranch_of_means (Draft.branch?_grammar_main _) (h.means.kept h.kept_grammar)

theorem ofScript_of_ok {script : String} {parts : List Part}
    (h : Script.parts script = .ok parts) :
    (ofScript script : Except GrammarError (Grammar σ)) = .ok (ofParts parts) := by
  unfold ofScript
  rw [h]

theorem ofScript_of_error {script : String} {fault : Script.Fault}
    (h : Script.parts script = .error fault) :
    (ofScript script : Except GrammarError (Grammar σ)) = .error (.script fault) := by
  unfold ofScript
  rw [h]

theorem expandScript_of_ok {script : String} {parts : List Part}
    (h : Script.parts script = .ok parts) :
    ∃ e, expandScript script = .ok e ∧ e.words = Part.phrases parts := by
  unfold expandScript
  rw [ofScript_of_ok h]
  exact expandBranch_ofParts Empty.elim parts

theorem expandScript_of_error {script : String} {fault : Script.Fault}
    (h : Script.parts script = .error fault) : expandScript script = .error (.script fault) := by
  unfold expandScript
  rw [ofScript_of_error h]
  rfl

/-- The phrases of a script that is compiled to a grammar of its own. -/
def scriptWords (script : String) : Except GrammarError (List String) := do
  (← ofScript script).words

theorem scriptWords_of_ok {script : String} {parts : List Part}
    (h : Script.parts script = .ok parts) : scriptWords script = .ok (Part.phrases parts) := by
  unfold scriptWords
  rw [ofScript_of_ok h]
  exact wordsFrom_eq_ok_iff.mpr (expandBranch_ofParts expandScript parts)

theorem scriptWords_of_error {script : String} {fault : Script.Fault}
    (h : Script.parts script = .error fault) : scriptWords script = .error (.script fault) := by
  unfold scriptWords
  rw [ofScript_of_error h]
  rfl

/-- **Phrases of parts.**  The grammar of a list of parts has the ordered product of its parts as
phrases, also when they are collected up to a limit that is not below their number, and so has every
script that is split into these parts. -/
theorem words_ofParts (parts : List Part) :
    (ofParts parts).words = .ok (Part.phrases parts) ∧
      (∀ limit, (Part.phrases parts).length ≤ limit →
        (ofParts parts).firstWords limit = .ok (Part.phrases parts)) ∧
      ∀ script, Script.parts script = .ok parts →
        scriptWords script = .ok (Part.phrases parts) := by
  obtain ⟨e, he, hwords⟩ := expandBranch_ofParts expandScript parts
  refine ⟨wordsFrom_eq_ok_iff.mpr ⟨e, he, hwords⟩, ?_, fun script h => scriptWords_of_ok h⟩
  intro limit hlimit
  have hfirst : e.firstWords limit = Part.phrases parts := by
    rw [Expansion.firstWords_eq_take, hwords, List.take_of_length_le hlimit]
  show (do return (← (ofParts parts).expansion mainBranch).firstWords limit) = _
  rw [show (ofParts parts).expansion mainBranch = .ok e from he, ← hfirst]
  rfl

end Grammar
end Typeahead
