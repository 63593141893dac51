import Typeahead.Draw

/-! # Expansions

An expansion is a tree of choices without references: at each position one of the literals comes
first (nothing, if there are none), and then, if there are branches, a phrase of one of them.
`Expansion.words` lists all phrases in order, `Expansion.firstWords` lists the first few without
forming the others, and `Expansion.sample` draws one of them position by position.
`Expansion.append` makes a second expansion follow every phrase of a first. -/

namespace Typeahead

/-- A tree of choices. -/
structure Expansion where
  /-- What may come first. -/
  literals : List String
  /-- What may follow. -/
  branches : List Expansion

namespace Expansion

/-- The expansion whose only phrase is the empty text. -/
def empty : Expansion := ⟨[], []⟩

/-- The expansion whose only phrase is the given text. -/
def text (t : String) : Expansion := ⟨[t], []⟩

/-- Puts a literal in front of the others. -/
def addLiteral (e : Expansion) (literal : String) : Expansion :=
  { e with literals := literal :: e.literals }

/-- Puts a branch in front of the others. -/
def addBranch (e branch : Expansion) : Expansion :=
  { e with branches := branch :: e.branches }

/-- The beginnings of the phrases: the literals, or the empty text if there are none. -/
def heads (literals : List String) : List String := if literals = [] then [""] else literals

mutual

/-- Makes `tail` follow every phrase of an expansion. -/
def append : Expansion → Expansion → Expansion
  | ⟨literals, branches⟩, tail =>
    ⟨literals, if branches.isEmpty then [tail] else appendAll branches tail⟩

/-- Makes `tail` follow every phrase of each of several expansions. -/
def appendAll : List Expansion → Expansion → List Expansion
  | [], _ => []
  | branch :: rest, tail => branch.append tail :: appendAll rest tail

end

/-! ### Phrases -/

mutual

/-- The phrases of an expansion, in order and with repetitions. -/
def words : Expansion → List String
  | ⟨literals, branches⟩ =>
    if branches.isEmpty then heads literals
    else (heads literals).flatMap fun head => (wordsAll branches).map (head ++ ·)

/-- The phrases of several expansions, one expansion after the other. -/
def wordsAll : List Expansion → List String
  | [] => []
  | branch :: rest => branch.words ++ wordsAll rest

end

mutual

/-- Collects phrases that begin with `lead` until `limit` phrases are found. -/
def collect (limit : Nat) (lead : String) (found : Array String) : Expansion → Array String
  | ⟨literals, branches⟩ =>
    (heads literals).foldl (fun found head =>
      if limit ≤ found.size then found
      else if branches.isEmpty then found.push (lead ++ head)
      else collectAll limit (lead ++ head) found branches) found

/-- Collects phrases of several expansions, one expansion after the other. -/
def collectAll (limit : Nat) (lead : String) (found : Array String) :
    List Expansion → Array String
  | [] => found
  | branch :: rest => collectAll limit lead (collect limit lead found branch) rest

end

/-- The first `limit` phrases, or all of them if there are fewer. -/
def firstWords (limit : Nat) (e : Expansion) : List String := (e.collect limit "" #[]).toList

/-! ### Sampling -/

/-- Draws one of the literals, if there are any. -/
def sampleHead (literals : List String) : StateM Draws String := do
  if literals = [] then
    return ""
  else
    let i ← Draws.pick literals.length
    return literals.getD i ""

mutual

/-- Draws a literal, if there are any, and then a branch and a phrase of it, if there are any. -/
def sample : Expansion → StateM Draws String
  | ⟨literals, branches⟩ => do
    let head ← sampleHead literals
    if branches.isEmpty then
      return head
    else
      let i ← Draws.pick branches.length
      let rest ← sampleNth branches i
      return head ++ rest

/-- Draws a phrase of the expansion that stands at the given place of a list. -/
def sampleNth : List Expansion → Nat → StateM Draws String
  | [], _ => return ""
  | branch :: _, 0 => branch.sample
  | _ :: rest, n + 1 => sampleNth rest n

end

end Expansion

end Typeahead
