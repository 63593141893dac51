import Mathlib.Logic.Relation
import Typeahead.Grammar
import Typeahead.Proofs.Meaning

/-! # References between branches

A branch refers to every name that occurs anywhere in its node, and a name reaches what it refers to
directly or through other branches.  `Grammar.Expandable` collects what is needed of everything that
a name reaches: each name is a branch, none reaches itself, and each script is accepted.
`Grammar.Blames` says which errors are justified by what a name reaches, and no error is justified
if the name is expandable (`Blames.not_expandable`).  A branch that has a meaning is expandable
(`expandable_of_means`). -/

namespace Typeahead

open Relation (ReflTransGen TransGen)

variable {σ : Type}

namespace Node

mutual

/-- The names and scripts that occur anywhere in a node, also in nested nodes and continuations. -/
def needs : List (Alternative σ) → List (String ⊕ σ)
  | [] => []
  | .literal _ :: rest => needs rest
  | .nested node :: rest => needs node ++ needs rest
  | .reference name next :: rest => .inl name :: (nextNeeds next ++ needs rest)
  | .script text :: rest => .inr text :: needs rest

/-- The names and scripts that occur anywhere in a continuation. -/
def nextNeeds : Continuation σ → List (String ⊕ σ)
  | .nothing => []
  | .text _ => []
  | .node node => needs node

end

end Node

namespace Grammar

/-! ### What a name reaches -/

/-- The branch `a` has a node in which the name `b` occurs. -/
def Refers (g : Grammar σ) (a b : String) : Prop :=
  ∃ node, g.branch? a = some node ∧ .inl b ∈ Node.needs node

/-- The name `b` is `a` or is referred to by something that `a` reaches. -/
def Reaches (g : Grammar σ) : String → String → Prop := ReflTransGen g.Refers

/-- What must hold of everything that a name reaches. -/
structure Expandable (g : Grammar σ) (accepts : σ → Prop) (name : String) : Prop where
  /-- Every name is a branch. -/
  known : ∀ m, g.Reaches name m → ∃ node, g.branch? m = some node
  /-- No name reaches itself by one or more references. -/
  acyclic : ∀ m, g.Reaches name m → ¬ TransGen g.Refers m m
  /-- Every script is accepted. -/
  scripts : ∀ m node text, g.Reaches name m → g.branch? m = some node →
    .inr text ∈ Node.needs node → accepts text

/-- The errors that something reached by a name is to blame for. -/
inductive Blames (g : Grammar σ) (fails : σ → GrammarError → Prop) (name : String) :
    GrammarError → Prop
  | unknown {m : String} (hr : g.Reaches name m) (hm : g.branch? m = none) :
      Blames g fails name (.unknownBranch m)
  | cyclic {m : String} (hr : g.Reaches name m) (hm : TransGen g.Refers m m) :
      Blames g fails name (.cyclicBranch m)
  | script {m : String} {node : Node σ} {text : σ} {error : GrammarError} (hr : g.Reaches name m)
      (hb : g.branch? m = some node) (ht : .inr text ∈ Node.needs node) (hf : fails text error) :
      Blames g fails name error

variable {g : Grammar σ} {accepts : σ → Prop} {fails : σ → GrammarError → Prop}
variable {name : String} {node : Node σ}

/-- A branch is expandable as soon as everything that occurs in its node is. -/
theorem expandable_of_needs (hb : g.branch? name = some node)
    (hneeds : ∀ x ∈ Node.needs node, Sum.elim (g.Expandable accepts) accepts x) :
    g.Expandable accepts name := by
  have hstep : ∀ m, g.Refers name m → g.Expandable accepts m := by
    rintro m ⟨node', hb', hm⟩
    obtain rfl := Option.some.inj (hb.symm.trans hb')
    exact hneeds _ hm
  refine ⟨?_, ?_, ?_⟩
  · intro m hm
    rcases hm.cases_head with rfl | ⟨b, hrb, hbm⟩
    · exact ⟨node, hb⟩
    · exact (hstep b hrb).known m hbm
  · intro m hm hcycle
    -- A cycle through the branch itself is also reached from what comes next on it.
    rcases hm.cases_head with rfl | ⟨b, hrb, hbm⟩
    · obtain ⟨b, hrb, hbm⟩ := TransGen.head'_iff.mp hcycle
      exact (hstep b hrb).acyclic name hbm hcycle
    · exact (hstep b hrb).acyclic m hbm hcycle
  · intro m node' text hm hb' ht
    rcases hm.cases_head with rfl | ⟨b, hrb, hbm⟩
    · obtain rfl := Option.some.inj (hb.symm.trans hb')
      exact hneeds _ ht
    · exact (hstep b hrb).scripts m node' text hbm hb' ht

theorem Blames.head {a b : String} {error : GrammarError} (hr : g.Refers a b)
    (h : g.Blames fails b error) : g.Blames fails a error := by
  cases h with
  | unknown hb hm => exact .unknown (hb.head hr) hm
  | cyclic hb hm => exact .cyclic (hb.head hr) hm
  | script hb hn ht hf => exact .script (hb.head hr) hn ht hf

theorem Blames.not_expandable {error : GrammarError}
    (hfails : ∀ text error, fails text error → ¬ accepts text)
    (h : g.Blames fails name error) : ¬ g.Expandable accepts name := by
  intro he
  cases h with
  | unknown hr hm =>
      obtain ⟨node, hb⟩ := he.known _ hr
      rw [hb] at hm
      cases hm
  | cyclic hr hm => exact he.acyclic _ hr hm
  | script hr hb ht hf => exact hfails _ _ hf (he.scripts _ _ _ hr hb ht)

end Grammar

/-! ### Meaning and reach -/

namespace Node

variable {branches : Table (Node σ)} {script : σ → List String → Prop}

theorem needs_of_terminal {node : Node σ} (h : node.isTerminal) : needs node = [] := by
  rw [eq_literals_of_terminal h]
  generalize texts node = ts
  induction ts with
  | nil => rfl
  | cons t ts ih => exact ih

mutual

/-- Whatever passes from the node of a branch to the name of the branch holds of all that occurs in
a node that has a meaning. -/
theorem Means.forall_needs {P : String ⊕ σ → Prop}
    (hname : ∀ name node, branches.get? name = some node → (∀ x ∈ needs node, P x) → P (.inl name))
    (hscript : ∀ text ws, script text ws → P (.inr text)) {node : Node σ} {ws : List String} :
    Means branches script node ws → ∀ x ∈ needs node, P x
  | .terminal h => by
      intro x hx
      rw [needs_of_terminal h] at hx
      cases hx
  | .branching h hf => hf.forall_needs hname hscript

theorem Follows.forall_needs {P : String ⊕ σ → Prop}
    (hname : ∀ name node, branches.get? name = some node → (∀ x ∈ needs node, P x) → P (.inl name))
    (hscript : ∀ text ws, script text ws → P (.inr text)) {node : Node σ} {ws : List String} :
    Follows branches script node ws → ∀ x ∈ needs node, P x
  | .nil => by
      intro x hx
      simp [needs] at hx
  | .literal hr => hr.forall_needs hname hscript
  | .nested hn hr => by
      intro x hx
      rcases List.mem_append.mp hx with hx | hx
      · exact hn.forall_needs hname hscript x hx
      · exact hr.forall_needs hname hscript x hx
  | .reference hb hn hc hr => by
      intro x hx
      rcases List.mem_cons.mp hx with rfl | hx
      · exact hname _ _ hb (hn.forall_needs hname hscript)
      · rcases List.mem_append.mp hx with hx | hx
        · exact hc.forall_needs hname hscript x hx
        · exact hr.forall_needs hname hscript x hx
  | .script hs hr => by
      intro x hx
      rcases List.mem_cons.mp hx with rfl | hx
      · exact hscript _ _ hs
      · exact hr.forall_needs hname hscript x hx

theorem Continues.forall_needs {P : String ⊕ σ → Prop}
    (hname : ∀ name node, branches.get? name = some node → (∀ x ∈ needs node, P x) → P (.inl name))
    (hscript : ∀ text ws, script text ws → P (.inr text)) {next : Continuation σ}
    {us ws : List String} :
    Continues branches script us next ws → ∀ x ∈ nextNeeds next, P x
  | .nothing => by
      intro x hx
      simp [nextNeeds] at hx
  | .text => by
      intro x hx
      simp [nextNeeds] at hx
  | .node hn => hn.forall_needs hname hscript

end

end Node

/-- All that occurs in a node that has a meaning is expandable or accepted. -/
theorem Node.Means.expandable_needs {g : Grammar σ} {script : σ → List String → Prop}
    {node : Node σ} {ws : List String} (hm : Node.Means g.branches script node ws) :
    ∀ x ∈ Node.needs node,
      Sum.elim (g.Expandable fun text => ∃ ws, script text ws) (fun text => ∃ ws, script text ws)
        x := by
  refine hm.forall_needs ?_ ?_
  · intro m node' hb hneeds
    exact Grammar.expandable_of_needs hb hneeds
  · intro text ws hs
    exact ⟨ws, hs⟩

theorem Grammar.expandable_of_means {g : Grammar σ} {script : σ → List String → Prop}
    {name : String} {node : Node σ} {ws : List String} (hb : g.branch? name = some node)
    (hm : Node.Means g.branches script node ws) :
    g.Expandable (fun text => ∃ ws, script text ws) name :=
  expandable_of_needs hb hm.expandable_needs

end Typeahead
