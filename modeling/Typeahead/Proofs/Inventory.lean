import Typeahead.Proofs.Ending
import Typeahead.Proofs.Parts
import Typeahead.Proofs.Rendering

/-! # The branches of a draft

Pushing a part makes a branch for the part if it is a group, and another one if a group was pushed
before: the main branch of the draft then ends in a reference, which moves to the new branch
(`Draft.push_of_none`, `Draft.push_of_some`).  What moves means the parts from the first group on,
and so does the new branch.  `Draft.Drafted` keeps this up together with the number of branches and
the meaning of all of them, and `Grammar.Inventory` says what it comes to for a grammar of parts. -/

namespace Typeahead

open Node (Means EndsIn)
open Expansion (heads)

variable {σ : Type}

namespace Part

/-- What a part adds to each of the phrases so far. -/
def choices : Part → List String
  | .literal text => [text]
  | .group alternatives => heads alternatives

theorem follow_eq_product (found : List String) (part : Part) :
    part.follow found = product found part.choices := by
  cases part with
  | literal text => exact (product_singleton_right found text).symm
  | group alternatives => rfl

theorem phrases_concat (parts : List Part) (part : Part) :
    phrases (parts ++ [part]) = product (phrases parts) part.choices := by
  rw [← follow_eq_product]
  exact List.foldl_concat follow [""] part parts

/-- The parts from the first group on. -/
def chain (parts : List Part) : List Part := parts.dropWhile isLiteral

theorem chain_concat_of_nil {parts : List Part} (h : chain parts = []) (part : Part) :
    chain (parts ++ [part]) = chain [part] := by
  unfold chain at h ⊢
  rw [List.dropWhile_append, h]
  rfl

theorem chain_concat_of_ne_nil {parts : List Part} (h : chain parts ≠ []) (part : Part) :
    chain (parts ++ [part]) = chain parts ++ [part] := by
  unfold chain at h ⊢
  rw [List.dropWhile_append, if_neg (by simpa using h)]

end Part

open Typeahead.Part (chain)

namespace Draft

open Stock (add numbered)

/-! ### What a part makes -/

/-- The node that a part puts behind the phrases so far, in the stock with the branch that the part
makes if it is a group. -/
def tailOf (s : Stock σ) : Part → Node σ × Stock σ
  | .literal text => ([.literal text], s)
  | .group alternatives =>
    let (name, s) := add "group" (Node.literals alternatives) s
    (Node.reference name .nothing, s)

/-- Where the node of a part ends. -/
def lastOf (s : Stock σ) : Part → Option (String × Continuation σ)
  | .literal _ => none
  | .group alternatives => some ((add "group" (Node.literals alternatives) s).1, .nothing)

section tail

variable (s : Stock σ) (part : Part)

theorem endsIn_tailOf : EndsIn (tailOf s part).1 (lastOf s part) := by
  cases part with
  | literal text => exact .literals [text]
  | group alternatives => exact .reference _ _

theorem grows_tailOf : s.Grows (tailOf s part).2 := by
  cases part with
  | literal text => exact .refl
  | group alternatives => exact Stock.Grows.refl.add _ _

theorem means_tailOf {script : σ → List String → Prop} :
    Means (tailOf s part).2.branches script (tailOf s part).1 part.choices := by
  cases part with
  | literal text => exact Node.means_literals [text]
  | group alternatives => exact means_group (d := ⟨s, []⟩) alternatives

end tail

variable {d : Draft σ}

theorem push_of_none (h : EndsIn d.main none) (part : Part) :
    (d.push part).stock = (tailOf d.stock part).2 ∧
      EndsIn (d.push part).main (lastOf d.stock part) := by
  have happend := h.append_of_none (endsIn_tailOf d.stock part) (tailOf d.stock part).2
  cases part with
  | literal text =>
      rw [Draft.push]
      split_ifs
      · exact ⟨rfl, .literals [text]⟩
      · exact happend
  | group alternatives => exact happend

theorem push_of_some {name : String} {next : Continuation σ} (h : EndsIn d.main (some (name, next)))
    (part : Part) :
    let r := add "then" (Node.reference name next) (tailOf d.stock part).2
    (d.push part).stock = r.2 ∧
      EndsIn (d.push part).main (some (r.1, .node (tailOf d.stock part).1)) := by
  intro r
  have happend := h.append_of_some (tailOf d.stock part).1 (tailOf d.stock part).2
  cases part with
  | literal text =>
      have hmain : d.main ≠ [] := by
        intro hnil
        rw [hnil] at h
        generalize hempty : ([] : Node σ) = node, hsome : some (name, next) = last at h
        cases h with
        | literals texts => cases hsome
        | reference => cases hempty
        | nested texts => simp at hempty
      rw [Draft.push, if_neg hmain]
      exact happend
  | group alternatives => exact happend

/-! ### What is kept up while parts are pushed -/

/-- Where the phrases end: after literals if no group was pushed, and otherwise in a reference that
means the parts from the first group on. -/
inductive Ended (script : σ → List String → Prop) (parts : List Part) (d : Draft σ) : Prop
  | after (hchain : chain parts = []) (h : EndsIn d.main none)
  | inside {name : String} {next : Continuation σ} (hchain : chain parts ≠ [])
      (h : EndsIn d.main (some (name, next)))
      (hm : Means d.stock.branches script (Node.reference name next) (Part.phrases (chain parts)))

/-- The draft is the one of the given parts, as far as its branches are concerned. -/
structure Drafted (script : σ → List String → Prop) (parts : List Part) (d : Draft σ) : Prop where
  phrased : Phrased script d (Part.phrases parts)
  /-- There is a branch for each group and for each part after the first group. -/
  size : d.stock.branches.size =
    parts.countP (fun part => !part.isLiteral) + (chain parts).tail.length
  means : ∀ name node, d.stock.branches.get? name = some node →
    ∃ ws, Means d.stock.branches script node ws
  ended : Ended script parts d

/-- What a branch holds that a part makes when it is pushed after other parts. -/
inductive Made (script : σ → List String → Prop) (branches : Table (Node σ)) (before : List Part)
    (part : Part) : String → Node σ → Prop
  | group {n : ℕ} {alternatives : List String} (h : part = .group alternatives) :
      Made script branches before part (numbered "group" n) (Node.literals alternatives)
  | follows {n : ℕ} {node : Node σ} (h : chain before ≠ [])
      (hm : Means branches script node (Part.phrases (chain before))) :
      Made script branches before part (numbered "then" n) node

variable {script : σ → List String → Prop} {parts : List Part}

theorem drafted_empty : Drafted script [] (empty : Draft σ) where
  phrased := phrased_empty
  size := rfl
  means := by
    intro name node h
    cases h
  ended := .after rfl (.literals [])

theorem size_tailOf (s : Stock σ) (part : Part) :
    (tailOf s part).2.branches.size =
      s.branches.size + [part].countP fun part => !part.isLiteral := by
  cases part with
  | literal text => rfl
  | group alternatives => exact Stock.size_add _ _ s

theorem get?_tailOf {s : Stock σ} {part : Part} {name : String} {node : Node σ}
    (h : (tailOf s part).2.branches.get? name = some node) :
    s.branches.get? name = some node ∨
      ∃ n alternatives, part = .group alternatives ∧ name = numbered "group" n ∧
        node = Node.literals alternatives := by
  cases part with
  | literal text => exact .inl h
  | group alternatives =>
      have h : (add "group" (Node.literals alternatives) s).2.branches.get? name = some node := h
      rw [Stock.get?_add] at h
      split_ifs at h with hname
      · exact .inr ⟨_, alternatives, rfl, hname, (Option.some.inj h).symm⟩
      · exact .inl h

theorem means_moved {s : Stock σ} {node tail : Node σ} {us vs : List String}
    (hm : Means s.branches script node us) (ht : Means s.branches script tail vs) :
    let r := add "then" node s
    Means r.2.branches script (Node.reference r.1 (.node tail)) (product us vs) := by
  intro r
  have hkept : s.branches.Kept r.2.branches := (Stock.Grows.refl.add "then" node).kept
  have hf : Node.Follows r.2.branches script (Node.reference r.1 (.node tail))
      (product us vs ++ []) :=
    .reference (Stock.get?_added _ _ _) (hm.kept hkept) (.node (ht.kept hkept)) .nil
  rw [List.append_nil] at hf
  exact Node.means_single rfl hf

/-- What the push of a part does to the branches of a draft of the parts before it. -/
structure Step (script : σ → List String → Prop) (before : List Part) (part : Part)
    (s s' : Stock σ) : Prop where
  grows : (tailOf s part).2.Grows s'
  size : s'.branches.size = s.branches.size + ([part].countP fun part => !part.isLiteral) +
    if chain before = [] then 0 else 1
  made : ∀ name node, s.branches.get? name = none → s'.branches.get? name = some node →
    Made script s'.branches before part name node
  follows : chain before ≠ [] →
    ∃ n, s.branches.get? (numbered "then" n) = none ∧ s'.branches.get? (numbered "then" n) ≠ none

theorem Step.kept {before : List Part} {part : Part} {s s' : Stock σ}
    (h : Step script before part s s') : s.branches.Kept s'.branches :=
  ((grows_tailOf s part).trans h.grows).kept

theorem exists_added (label : String) (node : Node σ) (s : Stock σ) :
    ∃ n, s.branches.get? (numbered label n) = none ∧
      (add label node s).2.branches.get? (numbered label n) = some node :=
  ⟨_, Stock.get?_fresh label node s, Stock.get?_added label node s⟩

theorem get?_eq_none_of_kept {s t : Table (Node σ)} (h : s.Kept t) {name : String}
    (hname : t.get? name = none) : s.get? name = none := by
  rw [Option.eq_none_iff_forall_ne_some]
  intro node hnode
  rw [h name node hnode] at hname
  cases hname

section push

variable {d : Draft σ} (h : Drafted script parts d) (part : Part)

include h

theorem Drafted.step : Step script parts part d.stock (d.push part).stock := by
  have hnew : ∀ {name node}, d.stock.branches.get? name = none →
      (tailOf d.stock part).2.branches.get? name = some node →
      ∀ branches, Made script branches parts part name node := by
    intro name node hnone hnode branches
    rcases get?_tailOf hnode with hnode | ⟨n, alternatives, hpart, rfl, rfl⟩
    · rw [hnone] at hnode
      cases hnode
    · exact .group hpart
  rcases h.ended with ⟨hchain, hends⟩ | ⟨hchain, hends, hm⟩
  · rw [(push_of_none hends part).1]
    refine ⟨.refl, ?_, fun name node hnone hnode => hnew hnone hnode _,
      fun hne => absurd hchain hne⟩
    rw [size_tailOf, if_pos hchain, Nat.add_zero]
  · rename_i last next
    let r := add "then" (Node.reference last next) (tailOf d.stock part).2
    have hgrows : (tailOf d.stock part).2.Grows r.2 := Stock.Grows.refl.add _ _
    have hkept := (grows_tailOf d.stock part).kept
    rw [(push_of_some hends part).1]
    refine ⟨hgrows, ?_, ?_, fun _ => ?_⟩
    · rw [Stock.size_add, size_tailOf, if_neg hchain]
    · intro name node hnone hnode
      rw [Stock.get?_add] at hnode
      split_ifs at hnode with hname
      · obtain rfl := Option.some.inj hnode
        rw [hname]
        exact .follows hchain (hm.kept fun name node hb => hgrows.kept _ _ (hkept name node hb))
      · exact hnew hnone hnode _
    · obtain ⟨n, hfresh, hadded⟩ :=
        exists_added "then" (Node.reference last next) (tailOf d.stock part).2
      exact ⟨n, get?_eq_none_of_kept hkept hfresh, by rw [hadded]; simp⟩

/-- After a push the phrases end where the part ends, or in a reference that means the parts from
the first group on. -/
theorem Drafted.ended_push : Ended script (parts ++ [part]) (d.push part) := by
  rcases h.ended with ⟨hchain, hends⟩ | ⟨hchain, hends, hm⟩
  · obtain ⟨hstock, hlast⟩ := push_of_none hends part
    cases part with
    | literal text => exact .after (Part.chain_concat_of_nil hchain _) hlast
    | group alternatives =>
        have hchain' : chain (parts ++ [.group alternatives]) = [] ++ [.group alternatives] :=
          Part.chain_concat_of_nil hchain _
        refine .inside (by simp [hchain']) hlast ?_
        rw [hchain', Part.phrases_concat, hstock]
        show Means _ script _ (product [""] _)
        rw [product_one_left]
        exact means_tailOf d.stock (.group alternatives)
  · obtain ⟨hstock, hlast⟩ := push_of_some hends part
    have hchain' := Part.chain_concat_of_ne_nil hchain part
    refine .inside (by simp [hchain']) hlast ?_
    rw [hchain', Part.phrases_concat, hstock]
    exact means_moved (hm.kept (grows_tailOf d.stock part).kept) (means_tailOf d.stock part)

theorem Drafted.push : Drafted script (parts ++ [part]) (d.push part) where
  phrased := by
    rw [Part.phrases_concat, ← Part.follow_eq_product]
    exact h.phrased.push part
  size := by
    rw [(h.step part).size, h.size, List.countP_append]
    by_cases hchain : chain parts = []
    · have hlength : (chain [part]).length ≤ 1 := List.length_dropWhile_le _ _
      rw [if_pos hchain, hchain, Part.chain_concat_of_nil hchain, List.length_tail,
        List.length_tail, List.length_nil]
      omega
    · have hpos : 0 < (chain parts).length := List.length_pos_iff.mpr hchain
      rw [if_neg hchain, Part.chain_concat_of_ne_nil hchain, List.length_tail, List.length_tail,
        List.length_append, List.length_singleton]
      omega
  means := by
    intro name node hnode
    cases hold : d.stock.branches.get? name with
    | none =>
        cases (h.step part).made name node hold hnode with
        | group => exact ⟨_, Node.means_literals _⟩
        | follows _ hm => exact ⟨_, hm⟩
    | some node' =>
        obtain rfl := Option.some.inj (((h.step part).kept name node' hold).symm.trans hnode)
        obtain ⟨ws, hm⟩ := h.means name node' hold
        exact ⟨ws, hm.kept (h.step part).kept⟩
  ended := h.ended_push part

theorem Drafted.group_push {alternatives : List String} (hpart : part = .group alternatives) :
    ∃ n, d.stock.branches.get? (numbered "group" n) = none ∧
      (d.push part).stock.branches.get? (numbered "group" n) ≠ none := by
  subst hpart
  obtain ⟨n, hfresh, hadded⟩ := exists_added "group" (Node.literals alternatives) d.stock
  exact ⟨n, hfresh, by rw [(h.step (.group alternatives)).grows.kept _ _ hadded]; simp⟩

end push

theorem ofParts_concat (parts : List Part) (part : Part) :
    (ofParts (parts ++ [part]) : Draft σ) = (ofParts parts).push part :=
  List.foldl_concat push empty part parts

theorem drafted_ofParts (parts : List Part) : Drafted script parts (ofParts parts) := by
  induction parts using List.reverseRecOn with
  | nil => exact drafted_empty
  | append_singleton parts part ih =>
      rw [ofParts_concat]
      exact ih.push part

theorem kept_ofParts (before after : List Part) :
    (ofParts before : Draft σ).stock.branches.Kept
      (ofParts (before ++ after) : Draft σ).stock.branches := by
  induction after using List.reverseRecOn with
  | nil => exact fun _ _ h => by rwa [List.append_nil]
  | append_singleton after part ih =>
      have hdrafted : Drafted (fun (_ : σ) _ => True) (before ++ after) (ofParts _) :=
        drafted_ofParts _
      have hstep := hdrafted.step part
      rw [← List.append_assoc, ofParts_concat]
      exact fun name node hb => hstep.kept _ _ (ih name node hb)

end Draft

namespace Grammar

open Stock (numbered)

/-! ### The branches of a grammar of parts -/

/-- The branch is made when the part is pushed after the parts before it. -/
def Makes (before : List Part) (part : Part) (name : String) : Prop :=
  (ofParts before : Grammar String).branch? name = none ∧
    (ofParts (before ++ [part]) : Grammar String).branch? name ≠ none

/-- What the branches of the grammar of some parts are, and what they mean. -/
structure Inventory (parts : List Part) (g : Grammar String) : Prop where
  /-- There is the main branch, one branch for each group, and one for each part after the first
  group. -/
  size : g.branches.size =
    1 + parts.countP (fun part => !part.isLiteral) + (chain parts).tail.length
  /-- What is made for the first of the parts is neither changed nor removed for further parts. -/
  kept : ∀ before after, parts = before ++ after → ∀ name node, name ≠ mainBranch →
    (ofParts before : Grammar String).branch? name = some node → g.branch? name = some node
  /-- Every reference in every branch names a branch. -/
  known : ∀ a b, g.Refers a b → ∃ node, g.branch? b = some node
  /-- The phrases of every branch can be listed. -/
  lists : ∀ name node, g.branch? name = some node → ∃ ws, g.wordsFrom name = .ok ws
  /-- Every branch but the main one is made for one of the parts. -/
  made : ∀ name node, name ≠ mainBranch → g.branch? name = some node →
    ∃ before part after, parts = before ++ part :: after ∧ Makes before part name
  /-- A branch is made for each group. -/
  group : ∀ before alternatives after, parts = before ++ .group alternatives :: after →
    ∃ n, Makes before (.group alternatives) (numbered "group" n)
  /-- A branch is made for each part that follows a group. -/
  follows : ∀ before part after, parts = before ++ part :: after → chain before ≠ [] →
    ∃ n, Makes before part (numbered "then" n)
  /-- The branch of a group holds its alternatives, and has them as its phrases.  The other branch
  that is made for a part has the phrases of the parts from the first group up to that part. -/
  phrases : ∀ before part after name, parts = before ++ part :: after → Makes before part name →
    (∃ n alternatives, name = numbered "group" n ∧ part = .group alternatives ∧
        g.branch? name = some (Node.literals alternatives) ∧
        g.wordsFrom name = .ok (heads alternatives)) ∨
      ∃ n, name = numbered "then" n ∧ chain before ≠ [] ∧
        g.wordsFrom name = .ok (Part.phrases (chain before))

variable {name : String} {node : Node String} {parts before after : List Part} {part : Part}

theorem branch?_ofParts_of_ne (h : name ≠ mainBranch) (parts : List Part) :
    (ofParts parts : Grammar σ).branch? name =
      (Draft.ofParts parts : Draft σ).stock.branches.get? name := by
  unfold branch? ofParts Draft.grammar
  rw [Table.get?_insert, if_neg h]

theorem branch?_ofParts_main (parts : List Part) :
    (ofParts parts : Grammar σ).branch? mainBranch = some (Draft.ofParts parts).main :=
  Draft.branch?_grammar_main _

theorem makes_iff :
    Makes before part name ↔
      name ≠ mainBranch ∧ (Draft.ofParts before : Draft String).stock.branches.get? name = none ∧
        ((Draft.ofParts before : Draft String).push part).stock.branches.get? name ≠ none := by
  unfold Makes
  by_cases h : name = mainBranch
  · subst h
    simp [branch?_ofParts_main]
  · rw [branch?_ofParts_of_ne h, branch?_ofParts_of_ne h, Draft.ofParts_concat]
    simp [h]

theorem makes_numbered {label : String} {n : ℕ}
    (h : (Draft.ofParts before : Draft String).stock.branches.get? (numbered label n) = none ∧
      ((Draft.ofParts before : Draft String).push part).stock.branches.get? (numbered label n) ≠
        none) : Makes before part (numbered label n) :=
  makes_iff.mpr ⟨Stock.numbered_ne_main label n, h⟩

/-- Every branch but the main one is made for one of the parts. -/
theorem exists_makes (parts : List Part) (hname : name ≠ mainBranch)
    (hb : (ofParts parts : Grammar String).branch? name = some node) :
    ∃ before part after, parts = before ++ part :: after ∧ Makes before part name := by
  induction parts using List.reverseRecOn generalizing node with
  | nil =>
      rw [branch?_ofParts_of_ne hname] at hb
      cases hb
  | append_singleton parts part ih =>
      cases hold : (ofParts parts : Grammar String).branch? name with
      | none => exact ⟨parts, part, [], rfl, hold, by simp [hb]⟩
      | some node' =>
          obtain ⟨before, part', after, rfl, hmakes⟩ := ih hold
          exact ⟨before, part', after ++ [part], by simp, hmakes⟩

/-- The phrases of scripts, as far as they can be expanded. -/
def ScriptMeans (text : String) (ws : List String) : Prop :=
  ∃ e, expandScript text = .ok e ∧ e.words = ws

theorem wordsFrom_of_means {g : Grammar String} {ws : List String}
    (hb : g.branch? name = some node) (hm : Means g.branches ScriptMeans node ws) :
    g.wordsFrom name = .ok ws :=
  wordsFrom_eq_ok_iff.mpr (expandBranch_of_means hb hm)

theorem drafted_script (parts : List Part) :
    Draft.Drafted ScriptMeans parts (Draft.ofParts parts) :=
  Draft.drafted_ofParts parts

theorem exists_means_ofParts (hb : (ofParts parts : Grammar String).branch? name = some node) :
    ∃ ws, Means (ofParts parts : Grammar String).branches ScriptMeans node ws := by
  have h := drafted_script parts
  have hkept := h.phrased.kept_grammar
  by_cases hname : name = mainBranch
  · rw [hname, branch?_ofParts_main] at hb
    obtain rfl := Option.some.inj hb
    exact ⟨_, h.phrased.means.kept hkept⟩
  · rw [branch?_ofParts_of_ne hname] at hb
    obtain ⟨ws, hm⟩ := h.means name node hb
    exact ⟨ws, hm.kept hkept⟩

theorem made_of_makes (h : Makes before part name) (after : List Part) :
    ∃ node, (ofParts (before ++ part :: after) : Grammar String).branch? name = some node ∧
      Draft.Made ScriptMeans (ofParts (before ++ part :: after) : Grammar String).branches before
        part name node := by
  obtain ⟨hname, hnone, hsome⟩ := makes_iff.mp h
  obtain ⟨node, hnode⟩ := Option.ne_none_iff_exists'.mp hsome
  have hall := drafted_script (before ++ part :: after)
  have hkept : ((Draft.ofParts before : Draft String).push part).stock.branches.Kept
      (Draft.ofParts (before ++ part :: after) : Draft String).stock.branches := by
    rw [← Draft.ofParts_concat, List.append_cons before part after]
    exact Draft.kept_ofParts _ after
  refine ⟨node, ?_, ?_⟩
  · rw [branch?_ofParts_of_ne hname]
    exact hkept name node hnode
  · cases ((drafted_script before).step part).made name node hnone hnode with
    | group hpart => exact .group hpart
    | follows hchain hm => exact .follows hchain ((hm.kept hkept).kept hall.phrased.kept_grammar)

/-- **The branches of parts.**  The grammar of a list of parts has a main branch, a branch for each
group, and a branch for each part after the first group; no branch but the main one changes when
further parts are pushed.  Every reference names a branch, and the phrases of every branch can be
listed: those of a group are its alternatives, and those of the branch that is made when a part
follows are the phrases of the parts from the first group up to that part. -/
theorem inventory_ofParts (parts : List Part) : Inventory parts (ofParts parts) := by
  constructor
  case size =>
    have h := drafted_script parts
    show (Table.insert _ _ _).size = _
    rw [Table.size_insert_of_get? _ h.phrased.free, h.size]
    omega
  case kept =>
    rintro before after rfl name node hname hb
    rw [branch?_ofParts_of_ne hname] at hb ⊢
    exact Draft.kept_ofParts before after name node hb
  case known =>
    rintro a b ⟨node, hb, hneeds⟩
    obtain ⟨ws, hm⟩ := exists_means_ofParts hb
    exact (expandable_of_means hb hm).known b (.single ⟨node, hb, hneeds⟩)
  case lists =>
    intro name node hb
    obtain ⟨ws, hm⟩ := exists_means_ofParts hb
    exact ⟨ws, wordsFrom_of_means hb hm⟩
  case made => exact fun name node => exists_makes parts
  case group =>
    rintro before alternatives after rfl
    obtain ⟨n, hn⟩ := (drafted_script before).group_push (.group alternatives) rfl
    exact ⟨n, makes_numbered hn⟩
  case follows =>
    rintro before part after rfl hchain
    obtain ⟨n, hn⟩ := ((drafted_script before).step part).follows hchain
    exact ⟨n, makes_numbered hn⟩
  case phrases =>
    rintro before part after name rfl hmakes
    obtain ⟨node, hb, hmade⟩ := made_of_makes hmakes after
    cases hmade with
    | @group n alternatives hpart =>
        exact .inl ⟨n, alternatives, rfl, hpart, hb, wordsFrom_of_means hb (Node.means_literals _)⟩
    | @follows n _ hchain hm => exact .inr ⟨n, rfl, hchain, wordsFrom_of_means hb hm⟩

end Grammar
end Typeahead
