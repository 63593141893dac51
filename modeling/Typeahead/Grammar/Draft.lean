import Typeahead.Grammar

/-! # Drafting a grammar from parts

Parts are pushed one after the other.  Each group becomes a branch of its own, and the main branch
grows so that its phrases are the phrases so far, each followed by each alternative of the new part.
`Stock.append` makes a node follow another at every place where a phrase of the first can end: a
node of literals gets it as a nested node, and a reference, whose branch other references may share,
is moved into a branch of its own that is referred to with a continuation.  Branches that are
already there never change: new names are always fresh. -/

namespace Typeahead

/-- The branches made so far, and the number that was last used in a name. -/
structure Stock (σ : Type) where
  branches : Table (Node σ)
  last : Nat

namespace Stock

variable {σ : Type}

/-- The name made from a label and a number. -/
def numbered (label : String) (n : Nat) : String := label ++ "-" ++ toString n

/-- The first number from `n` on whose name is free, if one of the next `tries` numbers is. -/
def freeNumber (branches : Table (Node σ)) (label : String) : (tries n : Nat) → Nat
  | 0, n => n
  | tries + 1, n =>
    if branches.contains (numbered label n) then freeNumber branches label tries (n + 1) else n

/-- Adds a branch under the first free name with the given label.  As many numbers as there are
branches can be taken, so the search need not go further. -/
def add (label : String) (node : Node σ) : StateM (Stock σ) String := fun stock =>
  let n := freeNumber stock.branches label stock.branches.size (stock.last + 1)
  (numbered label n, ⟨stock.branches.insert (numbered label n) node, n⟩)

/-- Makes `tail` follow each nested node, reference and script of a node. -/
def appendEach (tail : Node σ) : Node σ → StateM (Stock σ) (Node σ)
  | [] => return []
  | .literal text :: rest => do
    return .literal text :: (← appendEach tail rest)
  | .nested node :: rest => do
    let node ←
      if Node.isTerminal node then pure (node ++ [.nested tail]) else appendEach tail node
    return .nested node :: (← appendEach tail rest)
  | alternative :: rest => do
    let name ← add "then" [alternative]
    return .reference name (.node tail) :: (← appendEach tail rest)

/-- Makes `tail` follow every phrase of a node. -/
def append (tail node : Node σ) : StateM (Stock σ) (Node σ) :=
  if node.isTerminal then return node ++ [.nested tail] else appendEach tail node

end Stock

/-- A grammar under construction: its branches but for the main one, and the main one. -/
structure Draft (σ : Type) where
  stock : Stock σ
  main : Node σ

namespace Draft

variable {σ : Type}

/-- The draft before any part is pushed. -/
def empty : Draft σ := ⟨⟨.empty, 0⟩, []⟩

/-- Makes a node follow all phrases so far. -/
def append (d : Draft σ) (tail : Node σ) : Draft σ :=
  let (main, stock) := Stock.append tail d.main d.stock
  ⟨stock, main⟩

/-- Adds one part after everything pushed so far. -/
def push (d : Draft σ) : Part → Draft σ
  | .literal text =>
    if d.main = [] then { d with main := [.literal text] } else d.append [.literal text]
  | .group alternatives =>
    let (name, stock) := Stock.add "group" (Node.literals alternatives) d.stock
    { d with stock }.append (Node.reference name .nothing)

/-- The grammar of everything pushed so far. -/
def grammar (d : Draft σ) : Grammar σ :=
  ⟨d.stock.branches.insert Grammar.mainBranch d.main, Grammar.mainBranch⟩

/-- The draft after the given parts. -/
def ofParts (parts : List Part) : Draft σ := parts.foldl push empty

end Draft

namespace Grammar

variable {σ : Type}

/-- The grammar whose phrases are made of one alternative of each part, in order. -/
def ofParts (parts : List Part) : Grammar σ := (Draft.ofParts parts).grammar

/-- The grammar of a script. -/
def ofScript (script : String) : Except GrammarError (Grammar σ) :=
  match Script.parts script with
  | .ok parts => .ok (ofParts parts)
  | .error fault => .error (.script fault)

end Grammar

end Typeahead
