import Typeahead.Node
import Typeahead.Node.Misfit
import Typeahead.Script
import Typeahead.Table

/-! # Grammars

A grammar is a dictionary of named branches, each of them a node, and the name of the branch that
phrases start from.  A `GrammarError` is what can go wrong when a grammar is read or expanded. -/

namespace Typeahead

/-- A dictionary of branches with an entry. -/
structure Grammar (σ : Type) where
  branches : Table (Node σ)
  /-- The branch that phrases start from; it need not exist. -/
  entry : String
  deriving DecidableEq

namespace Grammar

/-- The name of the branch that compiled grammars start from. -/
def mainBranch : String := "main"

/-- The node of a branch. -/
def branch? {σ : Type} (g : Grammar σ) (name : String) : Option (Node σ) := g.branches.get? name

/-- The names of the branches, in increasing order. -/
def names {σ : Type} (g : Grammar σ) : List String := g.branches.keys

end Grammar

/-- Why a grammar cannot be read or expanded. -/
inductive GrammarError where
  /-- A parenthesis of a script is at fault. -/
  | script (fault : Script.Fault)
  /-- A reference names a branch that does not exist. -/
  | unknownBranch (name : String)
  /-- A branch refers back to itself. -/
  | cyclicBranch (name : String)
  /-- A JSON value is no grammar. -/
  | misfit (m : Misfit)
  deriving DecidableEq, Repr

/-- The sentence that reports the error. -/
def GrammarError.message : GrammarError → String
  | .script fault => fault.message
  | .unknownBranch name => "unknown branch '" ++ name ++ "'"
  | .cyclicBranch name => "cyclic reference to branch '" ++ name ++ "'"
  | .misfit m => m.message

end Typeahead
