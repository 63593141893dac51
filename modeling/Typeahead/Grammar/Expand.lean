import Typeahead.Expansion
import Typeahead.Grammar.Draft

/-! # Expanding a grammar

Expanding a node replaces every reference by the expansion of the branch it names, and every inline
script by the expansion of the grammar it writes.  The names of the branches that are being expanded
form a path; a reference to one of them is a cycle.  Each name on the path is one that is no longer
open, so expansion ends for every grammar (`open_cons_lt`).  The names inside a script are its own,
and a script never holds another one, so it is expanded on an empty path. -/

namespace Typeahead

variable {σ : Type}

namespace Node

section expand

variable (branch : String → Except GrammarError Expansion)
variable (script : σ → Except GrammarError Expansion)

mutual

/-- Expands a node, given the expansions of branches and of scripts.  The first error in the order
of the alternatives is reported. -/
def expand : List (Alternative σ) → Except GrammarError Expansion
  | [] => return .empty
  | .literal text :: rest => do
    return (← expand rest).addLiteral text
  | .nested node :: rest => do
    let e ← expand node
    return (← expand rest).addBranch e
  | .reference name next :: rest => do
    let e ← expandNext (← branch name) next
    return (← expand rest).addBranch e
  | .script text :: rest => do
    let e ← script text
    return (← expand rest).addBranch e

/-- Makes a continuation follow an expansion. -/
def expandNext (e : Expansion) : Continuation σ → Except GrammarError Expansion
  | .nothing => return e
  | .text text => return e.append (.text text)
  | .node node => return e.append (← expand node)

end

end expand

end Node

namespace Grammar

/-- The number of branches that are not on the path. -/
def openBranches (g : Grammar σ) (path : List String) : Nat :=
  (g.names.filter fun name => decide (name ∉ path)).length

theorem open_cons_lt {g : Grammar σ} {path : List String} {name : String} {node : Node σ}
    (h : name ∉ path) (hb : g.branch? name = some node) :
    g.openBranches (name :: path) < g.openBranches path := by
  have hmem : name ∈ g.names := Table.mem_keys.2 (Option.isSome_iff_exists.2 ⟨node, hb⟩)
  have hsub : (g.names.filter fun n => decide (n ∉ name :: path)) =
      (g.names.filter fun n => decide (n ∉ path)).filter fun n => decide (n ≠ name) := by
    rw [List.filter_filter]
    refine List.filter_congr fun n _ => ?_
    simp [not_or]
  rw [openBranches, openBranches, hsub]
  refine List.length_filter_lt_length_iff_exists.2 ⟨name, ?_, by simp⟩
  exact List.mem_filter.2 ⟨hmem, by simpa using h⟩

/-- Expands a branch while the branches on the path are being expanded. -/
def expandBranch (script : σ → Except GrammarError Expansion) (g : Grammar σ)
    (path : List String) (name : String) : Except GrammarError Expansion :=
  if name ∈ path then .error (.cyclicBranch name)
  else match _h : g.branch? name with
    | none => .error (.unknownBranch name)
    | some node => Node.expand (expandBranch script g (name :: path)) script node
termination_by g.openBranches path
decreasing_by exact open_cons_lt (by assumption) _h

/-- The expansion of a script. -/
def expandScript (script : String) : Except GrammarError Expansion := do
  let g : Grammar Empty ← ofScript script
  g.expandBranch Empty.elim [] mainBranch

/-- The expansion of a branch. -/
def expansion (g : Grammar String) (name : String) : Except GrammarError Expansion :=
  g.expandBranch expandScript [] name

/-! ### Phrases -/

/-- All phrases of a branch. -/
def wordsFrom (g : Grammar String) (name : String) : Except GrammarError (List String) :=
  return (← g.expansion name).words

/-- All phrases of a grammar. -/
def words (g : Grammar String) : Except GrammarError (List String) := g.wordsFrom g.entry

/-- The first `limit` phrases of a grammar. -/
def firstWords (g : Grammar String) (limit : Nat) : Except GrammarError (List String) :=
  return (← g.expansion g.entry).firstWords limit

/-- Draws a phrase of a branch; nothing is drawn if the branch cannot be expanded. -/
def sampleFrom (g : Grammar String) (name : String) : StateM Draws (Except GrammarError String) :=
  match g.expansion name with
  | .ok e => .ok <$> e.sample
  | .error error => return .error error

/-- Draws a phrase of a grammar. -/
def sample (g : Grammar String) : StateM Draws (Except GrammarError String) := g.sampleFrom g.entry

end Grammar

end Typeahead
