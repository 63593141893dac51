import Typeahead.Node
import Typeahead.Proofs.Product
import Typeahead.Table

/-! # The meaning of a node

`Means branches script node ws` says that the phrases of `node` are `ws`, in this order, without
any expansion: it follows the shape of the node alone.  The literals come first, and each of them is
followed by every phrase of the other alternatives, one alternative after the other (`Follows`).  A
reference means what its branch means, multiplied by what its continuation means (`Continues`).  No
path of open branches occurs here, and nothing is attached to the end of a tree of choices.

A node has at most one meaning (`Means.unique`), and it keeps its meaning when branches are added
(`Means.mono`). -/

namespace Typeahead

/-- Every entry of the first table is an entry of the second. -/
def Table.Kept {α : Type} (s t : Table α) : Prop :=
  ∀ key value, s.get? key = some value → t.get? key = some value

namespace Node

open Expansion (heads)

variable {σ : Type}

/-- The literals of a node, in order. -/
def texts : Node σ → List String
  | [] => []
  | .literal text :: rest => text :: texts rest
  | _ :: rest => texts rest

/-! ### The relation -/

section relation

variable (branches : Table (Node σ)) (script : σ → List String → Prop)

mutual

/-- The phrases of a node, given the branches that it can refer to and the phrases of scripts. -/
inductive Means : Node σ → List String → Prop
  /-- Nothing follows the literals. -/
  | terminal {node : Node σ} (h : node.isTerminal) : Means node (heads node.texts)
  /-- Each literal is followed by every phrase of the other alternatives. -/
  | branching {node : Node σ} {ws : List String} (h : ¬ node.isTerminal) (hf : Follows node ws) :
      Means node (product (heads node.texts) ws)

/-- The phrases of the alternatives that are no literals, one alternative after the other. -/
inductive Follows : Node σ → List String → Prop
  | nil : Follows [] []
  | literal {text : String} {rest : Node σ} {ws : List String} (hr : Follows rest ws) :
      Follows (.literal text :: rest) ws
  | nested {node rest : Node σ} {vs ws : List String} (hn : Means node vs) (hr : Follows rest ws) :
      Follows (.nested node :: rest) (vs ++ ws)
  | reference {name : String} {next : Continuation σ} {node rest : Node σ} {us vs ws : List String}
      (hb : branches.get? name = some node) (hn : Means node us) (hc : Continues us next vs)
      (hr : Follows rest ws) : Follows (.reference name next :: rest) (vs ++ ws)
  | script {text : σ} {rest : Node σ} {vs ws : List String} (hs : script text vs)
      (hr : Follows rest ws) : Follows (.script text :: rest) (vs ++ ws)

/-- What the phrases of a branch become when a continuation follows them. -/
inductive Continues : List String → Continuation σ → List String → Prop
  | nothing {us : List String} : Continues us .nothing us
  | text {us : List String} {text : String} : Continues us (.text text) (product us [text])
  | node {us vs : List String} {node : Node σ} (hn : Means node vs) :
      Continues us (.node node) (product us vs)

end

end relation

variable {branches branches' : Table (Node σ)} {script script' : σ → List String → Prop}

/-! ### A node has one meaning -/

mutual

theorem Means.unique (hscript : ∀ text vs ws, script text vs → script text ws → vs = ws)
    {node : Node σ} {vs ws : List String} :
    Means branches script node vs → Means branches script node ws → vs = ws
  | .terminal h, h' => by
      cases h' with
      | terminal => rfl
      | branching hn => exact absurd h hn
  | .branching h hf, h' => by
      cases h' with
      | terminal ht => exact absurd ht h
      | branching _ hf' => rw [hf.unique hscript hf']

theorem Follows.unique (hscript : ∀ text vs ws, script text vs → script text ws → vs = ws)
    {node : Node σ} {vs ws : List String} :
    Follows branches script node vs → Follows branches script node ws → vs = ws
  | .nil, h' => by
      cases h'
      rfl
  | .literal hr, h' => by
      cases h' with
      | literal hr' => exact hr.unique hscript hr'
  | .nested hn hr, h' => by
      cases h' with
      | nested hn' hr' => rw [hn.unique hscript hn', hr.unique hscript hr']
  | .reference hb hn hc hr, h' => by
      cases h' with
      | reference hb' hn' hc' hr' =>
          obtain rfl := Option.some.inj (hb.symm.trans hb')
          obtain rfl := hn.unique hscript hn'
          rw [hc.unique hscript hc', hr.unique hscript hr']
  | .script hs hr, h' => by
      cases h' with
      | script hs' hr' => rw [hscript _ _ _ hs hs', hr.unique hscript hr']

theorem Continues.unique (hscript : ∀ text vs ws, script text vs → script text ws → vs = ws)
    {next : Continuation σ} {us vs ws : List String} :
    Continues branches script us next vs → Continues branches script us next ws → vs = ws
  | .nothing, h' => by
      cases h'
      rfl
  | .text, h' => by
      cases h'
      rfl
  | .node hn, h' => by
      cases h' with
      | node hn' => rw [hn.unique hscript hn']

end

/-! ### More branches keep the meaning -/

mutual

theorem Means.mono (hkept : branches.Kept branches')
    (hscript : ∀ text ws, script text ws → script' text ws) {node : Node σ} {ws : List String} :
    Means branches script node ws → Means branches' script' node ws
  | .terminal h => .terminal h
  | .branching h hf => .branching h (hf.mono hkept hscript)

theorem Follows.mono (hkept : branches.Kept branches')
    (hscript : ∀ text ws, script text ws → script' text ws) {node : Node σ} {ws : List String} :
    Follows branches script node ws → Follows branches' script' node ws
  | .nil => .nil
  | .literal hr => .literal (hr.mono hkept hscript)
  | .nested hn hr => .nested (hn.mono hkept hscript) (hr.mono hkept hscript)
  | .reference hb hn hc hr =>
      .reference (hkept _ _ hb) (hn.mono hkept hscript) (hc.mono hkept hscript)
        (hr.mono hkept hscript)
  | .script hs hr => .script (hscript _ _ hs) (hr.mono hkept hscript)

theorem Continues.mono (hkept : branches.Kept branches')
    (hscript : ∀ text ws, script text ws → script' text ws) {next : Continuation σ}
    {us ws : List String} :
    Continues branches script us next ws → Continues branches' script' us next ws
  | .nothing => .nothing
  | .text => .text
  | .node hn => .node (hn.mono hkept hscript)

end

theorem Means.kept (hkept : branches.Kept branches') {node : Node σ} {ws : List String}
    (h : Means branches script node ws) : Means branches' script node ws :=
  h.mono hkept fun _ _ hs => hs

theorem Follows.kept (hkept : branches.Kept branches') {node : Node σ} {ws : List String}
    (h : Follows branches script node ws) : Follows branches' script node ws :=
  h.mono hkept fun _ _ hs => hs

/-! ### Nodes made from nodes -/

theorem texts_cons {a : Alternative σ} (ha : isLiteral a = false) (rest : Node σ) :
    texts (a :: rest) = texts rest := by
  cases a with
  | literal text => simp [isLiteral] at ha
  | _ => rfl

theorem texts_append (m n : Node σ) : texts (m ++ n) = texts m ++ texts n := by
  induction m with
  | nil => rfl
  | cons a m ih => cases a <;> simp [texts, ih]

@[simp] theorem texts_literals (ts : List String) : texts (literals ts : Node σ) = ts := by
  induction ts with
  | nil => rfl
  | cons t ts ih => exact congrArg (t :: ·) ih

@[simp] theorem isTerminal_literals (ts : List String) :
    isTerminal (literals ts : Node σ) = true := by
  simp [isTerminal, literals, isLiteral]

theorem eq_literals_of_terminal {node : Node σ} (h : node.isTerminal) :
    node = literals node.texts := by
  induction node with
  | nil => rfl
  | cons a rest ih =>
      obtain ⟨ha, hrest⟩ : isLiteral a = true ∧ isTerminal rest = true := by
        simpa [isTerminal] using h
      cases a with
      | literal text => exact congrArg (.literal text :: ·) (ih hrest)
      | _ => simp [isLiteral] at ha

theorem means_literals (ts : List String) :
    Means branches script (literals ts) (heads ts) := by
  have h : Means branches script (literals ts) (heads (texts (literals ts))) :=
    .terminal (isTerminal_literals ts)
  rwa [texts_literals] at h

theorem means_single {a : Alternative σ} {ws : List String} (ha : isLiteral a = false)
    (hf : Follows branches script [a] ws) : Means branches script [a] ws := by
  have h := Means.branching (by simp [isTerminal, ha]) hf
  rwa [texts_cons ha, texts, heads, if_pos rfl, product_one_left] at h

/-- What follows the literals of a node starts with what its first other alternative means. -/
theorem Follows.split {a : Alternative σ} {rest : Node σ} {ws : List String}
    (ha : isLiteral a = false) (h : Follows branches script (a :: rest) ws) :
    ∃ us vs, ws = us ++ vs ∧ Means branches script [a] us ∧ Follows branches script rest vs := by
  cases h with
  | literal hr => simp [isLiteral] at ha
  | @nested _ _ us vs hn hr =>
      have hf : Follows branches script _ (us ++ []) := .nested hn .nil
      rw [List.append_nil] at hf
      exact ⟨us, vs, rfl, means_single ha hf, hr⟩
  | @reference _ _ _ _ _ us vs hb hn hc hr =>
      have hf : Follows branches script _ (us ++ []) := .reference hb hn hc .nil
      rw [List.append_nil] at hf
      exact ⟨us, vs, rfl, means_single ha hf, hr⟩
  | @script _ _ us vs hs hr =>
      have hf : Follows branches script _ (us ++ []) := .script hs .nil
      rw [List.append_nil] at hf
      exact ⟨us, vs, rfl, means_single ha hf, hr⟩

theorem follows_of_terminal {node : Node σ} (h : node.isTerminal) :
    Follows branches script node [] := by
  rw [eq_literals_of_terminal h]
  generalize texts node = ts
  induction ts with
  | nil => exact .nil
  | cons t ts ih => exact .literal ih

theorem Follows.append {m n : Node σ} {us ws : List String} (hn : Follows branches script n ws) :
    Follows branches script m us → Follows branches script (m ++ n) (us ++ ws)
  | .nil => hn
  | .literal hr => .literal (Follows.append hn hr)
  | .nested hv hr => by
      rw [List.append_assoc]
      exact .nested hv (Follows.append hn hr)
  | .reference hb hv hc hr => by
      rw [List.append_assoc]
      exact .reference hb hv hc (Follows.append hn hr)
  | .script hs hr => by
      rw [List.append_assoc]
      exact .script hs (Follows.append hn hr)

theorem means_terminal_append {node tail : Node σ} {ws : List String} (h : node.isTerminal)
    (ht : Means branches script tail ws) :
    Means branches script (node ++ [.nested tail]) (product (heads node.texts) ws) := by
  have hf : Follows branches script (node ++ [.nested tail]) ([] ++ (ws ++ [])) :=
    Follows.append (.nested ht .nil) (follows_of_terminal h)
  have hb : ¬ isTerminal (node ++ [.nested tail]) := by simp [isTerminal, isLiteral]
  have hm := Means.branching hb hf
  rw [texts_append] at hm
  simpa [texts] using hm

end Node
end Typeahead
