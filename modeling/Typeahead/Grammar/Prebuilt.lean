import Typeahead.Grammar.Draft
import Typeahead.Node.Prebuilt

/-! # Grammars as plain JSON

A dictionary of branches is an object whose values are nodes, one of which is called `main`.  Any
other node stands for the dictionary that has it as its main branch; an object without `main` is
such a node if it has a key of a directive.  `Grammar.compile` reads a source that is either a
script or JSON. -/

namespace Typeahead

namespace Grammar

/-- Whether an object has a key that only directives have. -/
def looksLikeDirective (fields : List (String × Json)) : Bool :=
  ["branch", "script", "ps"].any fun key => (fields.lookup key).isSome

/-- Reads the branch that stands in the field `f` of a dictionary. -/
def branchOfJson (f : String × Json) : Except Misfit (String × Node String) :=
  match Node.ofJson f.2 with
  | .ok node => .ok (f.1, node)
  | .error m => .error { m with location := m.location.under f.1 }

/-- Reads a dictionary of branches, field by field. -/
def ofBranches (fields : List (String × Json)) : Except Misfit (Grammar String) := do
  return ⟨.ofList (← fields.mapM branchOfJson), mainBranch⟩

/-- Reads the value as the main branch. -/
def ofMain (value : Json) : Except Misfit (Grammar String) := do
  return ⟨Table.empty.insert mainBranch (← Node.ofJson value), mainBranch⟩

/-- Reads a dictionary of branches or a single node. -/
def readJson : Json → Except Misfit (Grammar String)
  | .object fields =>
    if (fields.lookup mainBranch).isSome then ofBranches fields
    else if looksLikeDirective fields then ofMain (.object fields)
    else .error ⟨[], .noMain⟩
  | value => ofMain value

/-- Reads a grammar from its JSON form. -/
def ofJson (value : Json) : Except GrammarError (Grammar String) :=
  match readJson value with
  | .ok g => .ok g
  | .error m => .error (.misfit m)

/-- The dictionary of the branches of a grammar. -/
def toJson (g : Grammar String) : Json :=
  .object (g.branches.entries.map fun e => (e.1, Node.toJson e.2))

/-- Reads a source: a string is a script, and every other value is JSON. -/
def compile : Json → Except GrammarError (Grammar String)
  | .text script => ofScript script
  | value => ofJson value

end Grammar

end Typeahead
