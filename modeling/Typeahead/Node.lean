/-! # Nodes

A node lists what may stand at one position of a phrase: literals, nested nodes, references to named
branches, and inline scripts.  One of the literals comes first, if there are any; one of the other
alternatives follows it, if there are any.

The parameter `σ` is the type of inline scripts: `String` for nodes that are written by hand, and
`Empty` for nodes that are known to hold none. -/

namespace Typeahead

mutual

/-- One alternative of a node. -/
inductive Alternative (σ : Type) where
  /-- Plain text. -/
  | literal (text : String)
  /-- A node of its own. -/
  | nested (node : List (Alternative σ))
  /-- The named branch, and what follows all its phrases. -/
  | reference (name : String) (next : Continuation σ)
  /-- A script to be compiled on its own. -/
  | script (text : σ)

/-- What follows every phrase of a referenced branch. -/
inductive Continuation (σ : Type) where
  | nothing
  | text (text : String)
  | node (node : List (Alternative σ))

end

/-- The alternatives at one position, in order. -/
abbrev Node (σ : Type) := List (Alternative σ)

namespace Node

variable {σ : Type}

/-- The node of the given literals. -/
def literals (texts : List String) : Node σ := texts.map .literal

/-- The node that is a single reference. -/
def reference (name : String) (next : Continuation σ) : Node σ := [.reference name next]

/-- Whether an alternative is a literal. -/
def isLiteral : Alternative σ → Bool
  | .literal _ => true
  | _ => false

/-- Whether a node holds literals only, so that nothing follows the one that is chosen. -/
def isTerminal (node : Node σ) : Bool := node.all isLiteral

end Node

/-! ### Equality -/

section equality

variable {σ : Type} [DecidableEq σ]

mutual

/-- Decides whether two alternatives are equal. -/
def Alternative.decEq : (a b : Alternative σ) → Decidable (a = b)
  | .literal s, .literal t => if h : s = t then .isTrue (by rw [h]) else .isFalse (by simp [h])
  | .nested m, .nested n =>
    match nodeDecEq m n with
    | .isTrue h => .isTrue (by rw [h])
    | .isFalse h => .isFalse (by simp [h])
  | .reference a c, .reference b d =>
    if h : a = b then
      match c.decEq d with
      | .isTrue h' => .isTrue (by rw [h, h'])
      | .isFalse h' => .isFalse (by simp [h'])
    else .isFalse (by simp [h])
  | .script s, .script t => if h : s = t then .isTrue (by rw [h]) else .isFalse (by simp [h])
  | .literal _, .nested _ | .literal _, .reference _ _ | .literal _, .script _
  | .nested _, .literal _ | .nested _, .reference _ _ | .nested _, .script _
  | .reference _ _, .literal _ | .reference _ _, .nested _ | .reference _ _, .script _
  | .script _, .literal _ | .script _, .nested _ | .script _, .reference _ _ => .isFalse (by simp)

/-- Decides whether two continuations are equal. -/
def Continuation.decEq : (c d : Continuation σ) → Decidable (c = d)
  | .nothing, .nothing => .isTrue rfl
  | .text s, .text t => if h : s = t then .isTrue (by rw [h]) else .isFalse (by simp [h])
  | .node m, .node n =>
    match nodeDecEq m n with
    | .isTrue h => .isTrue (by rw [h])
    | .isFalse h => .isFalse (by simp [h])
  | .nothing, .text _ | .nothing, .node _ | .text _, .nothing | .text _, .node _
  | .node _, .nothing | .node _, .text _ => .isFalse (by simp)

/-- Decides whether two lists of alternatives are equal. -/
def nodeDecEq : (m n : List (Alternative σ)) → Decidable (m = n)
  | [], [] => .isTrue rfl
  | [], _ :: _ | _ :: _, [] => .isFalse (by simp)
  | a :: m, b :: n =>
    match a.decEq b with
    | .isTrue h =>
      match nodeDecEq m n with
      | .isTrue h' => .isTrue (by rw [h, h'])
      | .isFalse h' => .isFalse (by simp [h'])
    | .isFalse h => .isFalse (by simp [h])

end

instance : DecidableEq (Alternative σ) := Alternative.decEq

instance : DecidableEq (Continuation σ) := Continuation.decEq

end equality

end Typeahead
