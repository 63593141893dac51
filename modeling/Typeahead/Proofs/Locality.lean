import Typeahead.Proofs.Resolution

/-! # What an expansion depends on

What a node expands to depends only on the names that occur in it (`Node.expand_congr`), so what a
branch expands to depends only on the nodes that it reaches (`Grammar.expandBranch_congr`), whatever
the path of open branches: two grammars that agree there fail alike and succeed alike.  Every
listing and every sample comes from an expansion, so none of them shows a branch that is not reached
(`Grammar.alike_of_agrees`). -/

namespace Typeahead

open Relation (ReflTransGen)

variable {σ : Type}

namespace Node

variable {branch branch' : String → Except GrammarError Expansion}
variable {script : σ → Except GrammarError Expansion}

mutual

/-- A node expands alike if the names that occur in it do. -/
theorem expand_congr : ∀ (node : Node σ),
    (∀ name, .inl name ∈ needs node → branch name = branch' name) →
      expand branch script node = expand branch' script node
  | [], _ => rfl
  | .literal text :: rest, h => by
      rw [expand, expand, expand_congr rest h]
  | .nested node :: rest, h => by
      have hnode := expand_congr node fun name hn => h name (List.mem_append_left _ hn)
      have hrest := expand_congr rest fun name hn => h name (List.mem_append_right _ hn)
      rw [expand, expand, hnode, hrest]
  | .reference name next :: rest, h => by
      have hname := h name List.mem_cons_self
      have hnext := fun e => expandNext_congr e next fun name hn =>
        h name (List.mem_cons_of_mem _ (List.mem_append_left _ hn))
      have hrest := expand_congr rest fun name hn =>
        h name (List.mem_cons_of_mem _ (List.mem_append_right _ hn))
      rw [expand, expand, hname, hrest]
      simp only [hnext]
  | .script text :: rest, h => by
      have hrest := expand_congr rest fun name hn => h name (List.mem_cons_of_mem _ hn)
      rw [expand, expand, hrest]

theorem expandNext_congr : ∀ (e : Expansion) (next : Continuation σ),
    (∀ name, .inl name ∈ nextNeeds next → branch name = branch' name) →
      expandNext branch script e next = expandNext branch' script e next
  | _, .nothing, _ => rfl
  | _, .text _, _ => rfl
  | _, .node node, h => by rw [expandNext, expandNext, expand_congr node h]

end

end Node

namespace Grammar

/-- The two grammars have the same node, or none, under every name that `name` reaches. -/
def Agrees (g g' : Grammar σ) (name : String) : Prop :=
  ∀ m, g.Reaches name m → g.branch? m = g'.branch? m

variable {g g' : Grammar σ} {name : String}

theorem Agrees.of_refers {m : String} (h : g.Agrees g' name) (hr : g.Refers name m) :
    g.Agrees g' m := fun k hk => h k (hk.head hr)

/-- It makes no difference in which of the two grammars the references are followed. -/
theorem Agrees.symm (h : g.Agrees g' name) : g'.Agrees g name := by
  have hreach : ∀ m, g'.Reaches name m → g.Reaches name m := by
    intro m hm
    induction hm with
    | refl => exact .refl
    | @tail b m _ hr ih =>
        obtain ⟨node, hb, hneeds⟩ := hr
        exact ih.tail ⟨node, (h b ih).trans hb, hneeds⟩
  exact fun m hm => (h m (hreach m hm)).symm

theorem agrees_of_ne {other : String} (hother : ¬ g.Reaches name other)
    (h : ∀ m, m ≠ other → g.branch? m = g'.branch? m) : g.Agrees g' name := by
  intro m hm
  apply h
  rintro rfl
  exact hother hm

/-- A branch expands alike in grammars that agree on all it reaches, whatever the path. -/
theorem expandBranch_congr {script : σ → Except GrammarError Expansion} (path : List String)
    (h : g.Agrees g' name) : expandBranch script g path name = expandBranch script g' path name := by
  induction path, name using expandBranch.induct g with
  | case1 path name hmem => rw [expandBranch_of_mem hmem, expandBranch_of_mem hmem]
  | case2 path name hmem hb =>
      have hb' : g'.branch? name = none := (h name .refl).symm.trans hb
      rw [expandBranch_of_none hmem hb, expandBranch_of_none hmem hb']
  | case3 path name hmem node hb ih =>
      have hb' : g'.branch? name = some node := (h name .refl).symm.trans hb
      rw [expandBranch_of_some hmem hb, expandBranch_of_some hmem hb']
      exact Node.expand_congr node fun m hm => ih m (h.of_refers ⟨node, hb, hm⟩)

/-- The grammar that starts from another branch. -/
def startingFrom (g : Grammar σ) (name : String) : Grammar σ := { g with entry := name }

/-- Neither a listing of the branch, with a limit or without, nor a sample of it tells the two
grammars apart. -/
structure Alike (g g' : Grammar String) (name : String) : Prop where
  words : g.wordsFrom name = g'.wordsFrom name
  firstWords : ∀ limit,
    (g.startingFrom name).firstWords limit = (g'.startingFrom name).firstWords limit
  /-- The samples are the same, and as many words are taken from the stream. -/
  sample : ∀ draws, g.sampleFrom name draws = g'.sampleFrom name draws

theorem Agrees.expansion_eq {g g' : Grammar String} (h : g.Agrees g' name) :
    g.expansion name = g'.expansion name := expandBranch_congr [] h

theorem Agrees.alike {g g' : Grammar String} (h : g.Agrees g' name) : g.Alike g' name where
  words := by rw [wordsFrom, wordsFrom, h.expansion_eq]
  firstWords limit := by
    -- Where a grammar starts from has no part in what its branches are.
    have hstart : (g.startingFrom name).Agrees (g'.startingFrom name) name := h
    show (do return (← (g.startingFrom name).expansion name).firstWords limit) =
      (do return (← (g'.startingFrom name).expansion name).firstWords limit)
    rw [hstart.expansion_eq]
  sample draws := by rw [sampleFrom, sampleFrom, h.expansion_eq]

/-- **Only what is reached can be seen.**  Two grammars that agree on every name that a name reaches
give the same phrases under this name, the same first phrases under every limit, and from the same
stream the same samples, for which they take equally many words; and where one of them fails, the
other fails with the same error.  So it makes no difference whether a branch that is not reached is
added, removed or changed. -/
theorem alike_of_agrees (g : Grammar String) (name : String) :
    (∀ g', g.Agrees g' name → g.Alike g' name) ∧
      ∀ other, ¬ g.Reaches name other →
        ∀ g', (∀ m, m ≠ other → g.branch? m = g'.branch? m) → g.Alike g' name := by
  refine ⟨fun g' h => h.alike, ?_⟩
  intro other hother g' h
  exact (agrees_of_ne hother h).alike

/-- A script makes a branch `group-1` of its own, and a branch of this name in the grammar around it
is not reached. -/
theorem alike_of_agrees_script :
    let main : Node String := [.reference "word" (.node [.script "(a|b)"])]
    let g : Grammar String := ⟨.ofList [("main", main), ("word", [.literal "x"])], "main"⟩
    let g' : Grammar String := ⟨g.branches.insert "group-1" [.literal "z"], "word"⟩
    g.Agrees g' "main" ∧ ¬ g.Reaches "main" "group-1" ∧
      (∀ m, m ≠ "group-1" → g.branch? m = g'.branch? m) ∧
      g.Alike g' "main" ∧ g'.Alike g "main" := by
  intro main g g'
  have hmain : g.branch? "main" = some main := by decide +kernel
  have hword : g.branch? "word" = some [.literal "x"] := by decide +kernel
  have hreach : ∀ m, g.Reaches "main" m → m = "main" ∨ m = "word" := by
    intro m hm
    induction hm with
    | refl => exact .inl rfl
    | tail _ hr ih =>
        obtain ⟨node, hb, hneeds⟩ := hr
        rcases ih with rfl | rfl
        · obtain rfl := Option.some.inj (hmain.symm.trans hb)
          simpa [main, Node.needs, Node.nextNeeds] using Or.inr hneeds
        · obtain rfl := Option.some.inj (hword.symm.trans hb)
          simp [Node.needs] at hneeds
  have hother : ¬ g.Reaches "main" "group-1" := by
    intro h
    simpa using hreach _ h
  have hbranch : ∀ m, m ≠ "group-1" → g.branch? m = g'.branch? m := by
    intro m hm
    show g.branches.get? m = (g.branches.insert "group-1" [.literal "z"]).get? m
    rw [Table.get?_insert, if_neg hm]
  have hagrees : g.Agrees g' "main" := agrees_of_ne hother hbranch
  exact ⟨hagrees, hother, hbranch, (alike_of_agrees g "main").1 g' hagrees,
    (alike_of_agrees g' "main").1 g hagrees.symm⟩

end Grammar
end Typeahead
