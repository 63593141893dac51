import Typeahead.Grammar.Expand
import Typeahead.Proofs.Outcome
import Typeahead.Proofs.Reference

/-! # Expansion of branches

A node expands exactly when every name and every script that occurs in it does, and the error of an
expansion is the error of one of them (`Node.ok_of_expand`, `Node.exists_of_expand_error`).  From
this the path of open branches is dealt with once: a branch that expands is expandable, and an error
blames something that the branch reaches, because every name on the path reaches the branch that is
being expanded (`blames_of_expandBranch`).  What a branch expands to has the phrases that the branch
means, whatever the path (`means_of_expandBranch`), and a branch that has a meaning expands
(`expandBranch_of_means`). -/

namespace Typeahead

open Relation (ReflTransGen TransGen)

variable {σ : Type}

namespace Node

open Expansion (wordsAll)

variable {branch : String → Except GrammarError Expansion}
variable {script : σ → Except GrammarError Expansion}

/-! ### What a node needs to expand -/

mutual

/-- If a node expands, so does everything that occurs in it. -/
theorem ok_of_expand : ∀ {node : Node σ} {e : Expansion}, expand branch script node = .ok e →
    ∀ x ∈ needs node, ∃ e, Sum.elim branch script x = .ok e
  | [], _, _, x, hx => by simp [needs] at hx
  | .literal text :: rest, _, h, x, hx => by
      rw [expand] at h
      obtain ⟨r, hr, -⟩ := bind_eq_ok_iff.mp h
      exact ok_of_expand hr x hx
  | .nested node :: rest, _, h, x, hx => by
      rw [expand] at h
      obtain ⟨n, hn, h⟩ := bind_eq_ok_iff.mp h
      obtain ⟨r, hr, -⟩ := bind_eq_ok_iff.mp h
      rcases List.mem_append.mp hx with hx | hx
      · exact ok_of_expand hn x hx
      · exact ok_of_expand hr x hx
  | .reference name next :: rest, _, h, x, hx => by
      rw [expand] at h
      obtain ⟨b, hb, h⟩ := bind_eq_ok_iff.mp h
      obtain ⟨c, hc, h⟩ := bind_eq_ok_iff.mp h
      obtain ⟨r, hr, -⟩ := bind_eq_ok_iff.mp h
      rcases List.mem_cons.mp hx with rfl | hx
      · exact ⟨b, hb⟩
      · rcases List.mem_append.mp hx with hx | hx
        · exact ok_of_expandNext hc x hx
        · exact ok_of_expand hr x hx
  | .script text :: rest, _, h, x, hx => by
      rw [expand] at h
      obtain ⟨s, hs, h⟩ := bind_eq_ok_iff.mp h
      obtain ⟨r, hr, -⟩ := bind_eq_ok_iff.mp h
      rcases List.mem_cons.mp hx with rfl | hx
      · exact ⟨s, hs⟩
      · exact ok_of_expand hr x hx

theorem ok_of_expandNext : ∀ {next : Continuation σ} {e e' : Expansion},
    expandNext branch script e next = .ok e' →
    ∀ x ∈ nextNeeds next, ∃ e, Sum.elim branch script x = .ok e
  | .nothing, _, _, _, x, hx => by simp [nextNeeds] at hx
  | .text _, _, _, _, x, hx => by simp [nextNeeds] at hx
  | .node node, _, _, h, x, hx => by
      rw [expandNext] at h
      obtain ⟨n, hn, -⟩ := bind_eq_ok_iff.mp h
      exact ok_of_expand hn x hx

end

mutual

/-- If a node fails to expand, something that occurs in it fails with the same error. -/
theorem exists_of_expand_error : ∀ {node : Node σ} {error : GrammarError},
    expand branch script node = .error error →
    ∃ x ∈ needs node, Sum.elim branch script x = .error error
  | [], _, h => by cases h
  | .literal text :: rest, _, h => by
      rw [expand] at h
      rcases bind_eq_error_iff.mp h with hr | ⟨r, -, h⟩
      · obtain ⟨x, hx, he⟩ := exists_of_expand_error hr
        exact ⟨x, hx, he⟩
      · cases h
  | .nested node :: rest, _, h => by
      rw [expand] at h
      rcases bind_eq_error_iff.mp h with hn | ⟨n, -, h⟩
      · obtain ⟨x, hx, he⟩ := exists_of_expand_error hn
        exact ⟨x, List.mem_append_left _ hx, he⟩
      · rcases bind_eq_error_iff.mp h with hr | ⟨r, -, h⟩
        · obtain ⟨x, hx, he⟩ := exists_of_expand_error hr
          exact ⟨x, List.mem_append_right _ hx, he⟩
        · cases h
  | .reference name next :: rest, _, h => by
      rw [expand] at h
      rcases bind_eq_error_iff.mp h with hb | ⟨b, -, h⟩
      · exact ⟨.inl name, List.mem_cons_self, hb⟩
      · rcases bind_eq_error_iff.mp h with hc | ⟨c, -, h⟩
        · obtain ⟨x, hx, he⟩ := exists_of_expandNext_error hc
          exact ⟨x, List.mem_cons_of_mem _ (List.mem_append_left _ hx), he⟩
        · rcases bind_eq_error_iff.mp h with hr | ⟨r, -, h⟩
          · obtain ⟨x, hx, he⟩ := exists_of_expand_error hr
            exact ⟨x, List.mem_cons_of_mem _ (List.mem_append_right _ hx), he⟩
          · cases h
  | .script text :: rest, _, h => by
      rw [expand] at h
      rcases bind_eq_error_iff.mp h with hs | ⟨s, -, h⟩
      · exact ⟨.inr text, List.mem_cons_self, hs⟩
      · rcases bind_eq_error_iff.mp h with hr | ⟨r, -, h⟩
        · obtain ⟨x, hx, he⟩ := exists_of_expand_error hr
          exact ⟨x, List.mem_cons_of_mem _ hx, he⟩
        · cases h

theorem exists_of_expandNext_error : ∀ {next : Continuation σ} {e : Expansion}
    {error : GrammarError}, expandNext branch script e next = .error error →
    ∃ x ∈ nextNeeds next, Sum.elim branch script x = .error error
  | .nothing, _, _, h => by cases h
  | .text _, _, _, h => by cases h
  | .node node, _, _, h => by
      rw [expandNext] at h
      rcases bind_eq_error_iff.mp h with hn | ⟨n, -, h⟩
      · exact exists_of_expand_error hn
      · cases h

end

/-! ### What a node means and what it expands to -/

section meaning

variable {branches : Table (Node σ)} {phrases : σ → List String → Prop}

/-- The expansion `e` has the shape of the node, and its branches have the phrases that follow the
literals of the node. -/
structure Expands (branches : Table (Node σ)) (phrases : σ → List String → Prop) (node : Node σ)
    (e : Expansion) : Prop where
  literals : e.literals = texts node
  terminal : e.branches = [] ↔ node.isTerminal
  follows : Follows branches phrases node (wordsAll e.branches)

theorem Expands.means {node : Node σ} {e : Expansion} (h : Expands branches phrases node e) :
    Means branches phrases node e.words := by
  obtain ⟨literals, rest⟩ := e
  obtain ⟨rfl, hterminal, hfollows⟩ := h
  by_cases hr : rest = []
  · subst hr
    exact .terminal (hterminal.mp rfl)
  · rw [Expansion.words_branching _ hr]
    exact .branching (fun ht => hr (hterminal.mpr ht)) hfollows

theorem Expands.nil : Expands branches phrases [] .empty :=
  ⟨rfl, by simp [Expansion.empty, isTerminal], .nil⟩

theorem Expands.literal {text : String} {rest : Node σ} {r : Expansion}
    (hr : Expands branches phrases rest r) :
    Expands branches phrases (.literal text :: rest) (r.addLiteral text) where
  literals := congrArg (text :: ·) hr.literals
  terminal := by simpa [isTerminal, isLiteral, Expansion.addLiteral] using hr.terminal
  follows := .literal hr.follows

theorem Expands.follower {a : Alternative σ} {rest : Node σ} {e r : Expansion}
    (ha : isLiteral a = false) (hr : Expands branches phrases rest r)
    (hf : Follows branches phrases (a :: rest) (e.words ++ wordsAll r.branches)) :
    Expands branches phrases (a :: rest) (r.addBranch e) where
  literals := by
    rw [texts_cons ha]
    exact hr.literals
  terminal := by simp [isTerminal, ha, Expansion.addBranch]
  follows := hf

mutual

theorem expands_of_expand
    (hbranch : ∀ name e, branch name = .ok e →
      ∃ node, branches.get? name = some node ∧ Means branches phrases node e.words)
    (hscript : ∀ text e, script text = .ok e → phrases text e.words) :
    ∀ {node : Node σ} {e : Expansion}, expand branch script node = .ok e →
      Expands branches phrases node e
  | [], _, h => by
      obtain rfl := Except.ok.inj h
      exact .nil
  | .literal text :: rest, _, h => by
      rw [expand] at h
      obtain ⟨r, hr, h⟩ := bind_eq_ok_iff.mp h
      obtain rfl := Except.ok.inj h
      exact (expands_of_expand hbranch hscript hr).literal
  | .nested node :: rest, _, h => by
      rw [expand] at h
      obtain ⟨n, hn, h⟩ := bind_eq_ok_iff.mp h
      obtain ⟨r, hr, h⟩ := bind_eq_ok_iff.mp h
      obtain rfl := Except.ok.inj h
      have hmn := (expands_of_expand hbranch hscript hn).means
      have her := expands_of_expand hbranch hscript hr
      exact .follower rfl her (.nested hmn her.follows)
  | .reference name next :: rest, _, h => by
      rw [expand] at h
      obtain ⟨b, hb, h⟩ := bind_eq_ok_iff.mp h
      obtain ⟨c, hc, h⟩ := bind_eq_ok_iff.mp h
      obtain ⟨r, hr, h⟩ := bind_eq_ok_iff.mp h
      obtain rfl := Except.ok.inj h
      obtain ⟨node, hnode, hmb⟩ := hbranch name b hb
      have her := expands_of_expand hbranch hscript hr
      exact .follower rfl her
        (.reference hnode hmb (continues_of_expandNext hbranch hscript hc) her.follows)
  | .script text :: rest, _, h => by
      rw [expand] at h
      obtain ⟨s, hs, h⟩ := bind_eq_ok_iff.mp h
      obtain ⟨r, hr, h⟩ := bind_eq_ok_iff.mp h
      obtain rfl := Except.ok.inj h
      have her := expands_of_expand hbranch hscript hr
      exact .follower rfl her (.script (hscript text s hs) her.follows)

theorem continues_of_expandNext
    (hbranch : ∀ name e, branch name = .ok e →
      ∃ node, branches.get? name = some node ∧ Means branches phrases node e.words)
    (hscript : ∀ text e, script text = .ok e → phrases text e.words) :
    ∀ {next : Continuation σ} {e e' : Expansion}, expandNext branch script e next = .ok e' →
      Continues branches phrases e.words next e'.words
  | .nothing, _, _, h => by
      obtain rfl := Except.ok.inj h
      exact .nothing
  | .text text, _, _, h => by
      obtain rfl := Except.ok.inj h
      rw [Expansion.words_append]
      exact .text
  | .node node, _, _, h => by
      rw [expandNext] at h
      obtain ⟨n, hn, h⟩ := bind_eq_ok_iff.mp h
      obtain rfl := Except.ok.inj h
      rw [Expansion.words_append]
      exact .node (expands_of_expand hbranch hscript hn).means

end

end meaning

end Node

namespace Grammar

variable {script : σ → Except GrammarError Expansion} {g : Grammar σ}
variable {path : List String} {name : String}

/-! ### The expansion of a branch, case by case -/

theorem expandBranch_of_mem (h : name ∈ path) :
    expandBranch script g path name = .error (.cyclicBranch name) := by
  rw [expandBranch, if_pos h]

theorem expandBranch_of_none (h : name ∉ path) (hb : g.branch? name = none) :
    expandBranch script g path name = .error (.unknownBranch name) := by
  rw [expandBranch, if_neg h]
  split
  · rfl
  · rename_i node hs
    rw [hb] at hs
    cases hs

theorem expandBranch_of_some {node : Node σ} (h : name ∉ path) (hb : g.branch? name = some node) :
    expandBranch script g path name =
      Node.expand (expandBranch script g (name :: path)) script node := by
  rw [expandBranch, if_neg h]
  split
  · rename_i hs
    rw [hb] at hs
    cases hs
  · rename_i node' hs
    obtain rfl := Option.some.inj (hb.symm.trans hs)
    rfl

/-! ### Success -/

theorem expandable_of_expandBranch {e : Expansion} (h : expandBranch script g path name = .ok e) :
    g.Expandable (fun text => ∃ e, script text = .ok e) name := by
  induction path, name using expandBranch.induct g generalizing e with
  | case1 path name hmem =>
      rw [expandBranch_of_mem hmem] at h
      cases h
  | case2 path name hmem hb =>
      rw [expandBranch_of_none hmem hb] at h
      cases h
  | case3 path name hmem node hb ih =>
      rw [expandBranch_of_some hmem hb] at h
      refine expandable_of_needs hb fun x hx => ?_
      obtain ⟨e', he⟩ := Node.ok_of_expand h x hx
      cases x with
      | inl m => exact ih m he
      | inr text => exact ⟨e', he⟩

/-- What a branch expands to has the phrases that the branch means, whatever the path. -/
theorem means_of_expandBranch {e : Expansion} (h : expandBranch script g path name = .ok e) :
    ∃ node, g.branch? name = some node ∧
      Node.Means g.branches (fun text ws => ∃ e, script text = .ok e ∧ e.words = ws) node
        e.words := by
  induction path, name using expandBranch.induct g generalizing e with
  | case1 path name hmem =>
      rw [expandBranch_of_mem hmem] at h
      cases h
  | case2 path name hmem hb =>
      rw [expandBranch_of_none hmem hb] at h
      cases h
  | case3 path name hmem node hb ih =>
      rw [expandBranch_of_some hmem hb] at h
      have hexpands := Node.expands_of_expand (fun m e' he => ih m he)
        (fun text e' he => ⟨e', he, rfl⟩) h
      exact ⟨node, hb, hexpands.means⟩

theorem means_of_expand {node : Node σ} {e : Expansion}
    (h : Node.expand (expandBranch script g path) script node = .ok e) :
    Node.Means g.branches (fun text ws => ∃ e, script text = .ok e ∧ e.words = ws) node e.words :=
  (Node.expands_of_expand (fun _ _ he => means_of_expandBranch he) (fun _ e' he => ⟨e', he, rfl⟩)
    h).means

/-! ### Failure -/

/-- An error blames something that the branch reaches.  Every name on the path reaches the branch,
so that meeting it again closes a cycle. -/
theorem blames_of_expandBranch {error : GrammarError}
    (h : expandBranch script g path name = .error error)
    (hpath : ∀ m ∈ path, TransGen g.Refers m name) :
    g.Blames (fun text error => script text = .error error) name error := by
  induction path, name using expandBranch.induct g generalizing error with
  | case1 path name hmem =>
      rw [expandBranch_of_mem hmem] at h
      obtain rfl := Except.error.inj h
      exact .cyclic .refl (hpath name hmem)
  | case2 path name hmem hb =>
      rw [expandBranch_of_none hmem hb] at h
      obtain rfl := Except.error.inj h
      exact .unknown .refl hb
  | case3 path name hmem node hb ih =>
      rw [expandBranch_of_some hmem hb] at h
      obtain ⟨x, hx, he⟩ := Node.exists_of_expand_error h
      cases x with
      | inl m =>
          have hr : g.Refers name m := ⟨node, hb, hx⟩
          refine (ih m he ?_).head hr
          intro k hk
          rcases List.mem_cons.mp hk with rfl | hk
          · exact .single hr
          · exact (hpath k hk).tail hr
      | inr text => exact .script .refl hb hx he

theorem exists_expandBranch_of_expandable {accepts : σ → Prop}
    (hfails : ∀ text error, script text = .error error → ¬ accepts text)
    (h : g.Expandable accepts name) : ∃ e, expandBranch script g [] name = .ok e := by
  cases he : expandBranch script g [] name with
  | error error =>
      have hblames := blames_of_expandBranch he (fun m hm => absurd hm List.not_mem_nil)
      exact absurd h (hblames.not_expandable hfails)
  | ok e => exact ⟨e, rfl⟩

/-! ### What has a meaning expands -/

theorem not_expands_of_error (text : σ) (error : GrammarError) (h : script text = .error error) :
    ¬ ∃ ws, ∃ e, script text = .ok e ∧ e.words = ws := by
  rintro ⟨ws, e, hok, -⟩
  rw [h] at hok
  cases hok

theorem words_unique (text : σ) (vs ws : List String) (hv : ∃ e, script text = .ok e ∧ e.words = vs)
    (hw : ∃ e, script text = .ok e ∧ e.words = ws) : vs = ws := by
  obtain ⟨e₁, h₁, rfl⟩ := hv
  obtain ⟨e₂, h₂, rfl⟩ := hw
  rw [Except.ok.inj (h₁.symm.trans h₂)]

/-- A branch that has a meaning expands, and what it expands to has the phrases it means. -/
theorem expandBranch_of_means {node : Node σ} {ws : List String} (hb : g.branch? name = some node)
    (hm : Node.Means g.branches (fun text ws => ∃ e, script text = .ok e ∧ e.words = ws) node ws) :
    ∃ e, expandBranch script g [] name = .ok e ∧ e.words = ws := by
  obtain ⟨e, he⟩ := exists_expandBranch_of_expandable not_expands_of_error
    (expandable_of_means hb hm)
  obtain ⟨node', hb', hm'⟩ := means_of_expandBranch he
  obtain rfl := Option.some.inj (hb.symm.trans hb')
  exact ⟨e, he, hm'.unique words_unique hm⟩

/-- A node that has a meaning expands, and what it expands to has the phrases it means. -/
theorem expand_of_means {node : Node σ} {ws : List String}
    (hm : Node.Means g.branches (fun text ws => ∃ e, script text = .ok e ∧ e.words = ws) node ws) :
    ∃ e, Node.expand (expandBranch script g []) script node = .ok e ∧ e.words = ws := by
  cases h : Node.expand (expandBranch script g []) script node with
  | error error =>
      obtain ⟨x, hx, he⟩ := Node.exists_of_expand_error h
      have hexp := hm.expandable_needs x hx
      cases x with
      | inl m =>
          obtain ⟨e, hok⟩ := exists_expandBranch_of_expandable not_expands_of_error hexp
          cases hok.symm.trans he
      | inr text => exact absurd hexp (not_expands_of_error text error he)
  | ok e => exact ⟨e, rfl, (means_of_expand h).unique words_unique hm⟩

/-! ### Phrases of a branch -/

theorem wordsFrom_eq_ok_iff {g : Grammar String} {name : String} {ws : List String} :
    g.wordsFrom name = .ok ws ↔ ∃ e, g.expansion name = .ok e ∧ e.words = ws := by
  unfold wordsFrom
  rw [bind_eq_ok_iff]
  constructor
  · rintro ⟨e, he, hw⟩
    exact ⟨e, he, Except.ok.inj hw⟩
  · rintro ⟨e, he, hw⟩
    exact ⟨e, he, congrArg Except.ok hw⟩

theorem wordsFrom_eq_error_iff {g : Grammar String} {name : String} {error : GrammarError} :
    g.wordsFrom name = .error error ↔ g.expansion name = .error error := by
  unfold wordsFrom
  rw [bind_eq_error_iff]
  constructor
  · rintro (h | ⟨e, -, h⟩)
    · exact h
    · cases h
  · exact Or.inl

end Grammar
end Typeahead
