import Mathlib.Data.List.Chain
import Typeahead.Proofs.Resolver

/-! # The path of open names

The names on the path of a resolver are open: their nodes are being expanded.  Before each step, and
hence at every moment of a run, all that is still to be expanded occurs in the node of the innermost
open name (`Met`), and every waiting call has the path that it will go on with (`Fits`).  So each open
name is referred to by the one that was opened before it, and since a name that is open already is
refused, no name is open twice and no path is longer than there are branches (`Stacked`).  A grammar
in which a script occurs is no grammar of a script, so at most one call waits for a script.

Together with the calls, all of which return, these invariants say how the expansion of a branch ends
in every grammar, with cycles or without (`Resolver.start_terminates`). -/

namespace Typeahead

open Relation (ReflTransGen)

namespace Resolver

/-! ### Levels -/

/-- The grammars that wait for the expansion of a script, each with the path in it. -/
def waiting : List Frame → List (Grammar String × List String)
  | [] => []
  | .script g path :: frames => (g, path) :: waiting frames
  | .alternative _ _ :: frames => waiting frames
  | .branch _ _ :: frames => waiting frames
  | .next _ :: frames => waiting frames

/-- The grammars that are being expanded, each with the path in it, the innermost of them first. -/
def levels (r : Resolver) : List (Grammar String × List String) :=
  (r.grammar, r.path) :: waiting r.frames

/-- The open names of a grammar, the innermost of them first. -/
structure Stacked (g : Grammar String) (path : List String) : Prop where
  /-- No name is open twice. -/
  distinct : path.Nodup
  /-- Every open name is a branch. -/
  known : ∀ name ∈ path, ∃ node, g.branch? name = some node
  /-- Every open name is referred to by the one that was opened before it. -/
  linked : path.IsChain fun inner outer => g.Refers outer inner

section stacked

variable {g : Grammar String} {path : List String} {name : String}

theorem stacked_nil : Stacked g [] := ⟨.nil, by simp, .nil⟩

/-- No path is longer than there are branches. -/
theorem Stacked.length_le (h : Stacked g path) : path.length ≤ g.branches.size := by
  have hsub : path ⊆ g.names := by
    intro name hname
    exact Table.mem_keys.mpr (Option.isSome_iff_exists.mpr (h.known name hname))
  have hlen := h.distinct.length_le_of_subset hsub
  rwa [Grammar.names, Table.keys, List.length_map] at hlen

end stacked

/-! ### What is still to be expanded -/

/-- A name or script that is met while the given names are open. -/
def Met (g : Grammar String) : List String → String ⊕ String → Prop
  | [], x => ∃ name, x = .inl name
  | name :: _, x => ∃ node, g.branch? name = some node ∧ x ∈ Node.needs node

/-- The names and scripts that are still to be expanded before the innermost call returns. -/
def Control.needs : Control → List (String ⊕ String)
  | .reference name next => .inl name :: Node.nextNeeds next
  | .alternatives _ rest => Node.needs rest
  | .result _ => []

/-- The calls that wait can go on where the innermost call returns, with its grammar and its path. -/
inductive Fits : Grammar String → List String → List Frame → Prop
  | outermost {g : Grammar String} : Fits g [] []
  | alternative {g : Grammar String} {path : List String} {done : Expansion} {rest : Node String}
      {frames : List Frame} (hrest : ∀ x ∈ Node.needs rest, Met g path x)
      (hframes : Fits g path frames) : Fits g path (.alternative done rest :: frames)
  | branch {g : Grammar String} {path : List String} {name : String} {node : Node String}
      {next : Continuation String} {frames : List Frame} (hopen : name ∉ path)
      (hb : g.branch? name = some node) (hname : Met g path (.inl name))
      (hnext : ∀ x ∈ Node.nextNeeds next, Met g path x) (hframes : Fits g path frames) :
      Fits g (name :: path) (.branch name next :: frames)
  | next {g : Grammar String} {path : List String} {e : Expansion} {frames : List Frame}
      (hframes : Fits g path frames) : Fits g path (.next e :: frames)
  | script {inner g : Grammar String} {path : List String} {frames : List Frame}
      (hinner : inner.Scriptless) (hwaiting : waiting frames = []) (hframes : Fits g path frames) :
      Fits inner [] (.script g path :: frames)

section fits

variable {g : Grammar String} {path : List String} {name text : String} {frames : List Frame}

theorem Fits.scriptless (h : Fits g path frames) (hw : waiting frames ≠ []) : g.Scriptless := by
  induction h with
  | outermost => exact absurd rfl hw
  | alternative _ _ ih => exact ih hw
  | branch _ _ _ _ _ ih => exact ih hw
  | next _ ih => exact ih hw
  | script hinner _ _ _ => exact hinner

theorem Met.not_scriptless (h : Met g path (.inr text)) : ¬ g.Scriptless := by
  intro hg
  cases path with
  | nil =>
      obtain ⟨name, hname⟩ := h
      cases hname
  | cons name path =>
      obtain ⟨node, hb, htext⟩ := h
      exact hg name node text hb htext

/-- A script is met only while no grammar waits for another one. -/
theorem Fits.waiting_eq_nil (h : Fits g path frames) (ht : Met g path (.inr text)) :
    waiting frames = [] := by
  by_contra hw
  exact ht.not_scriptless (h.scriptless hw)

theorem Fits.length_waiting_le (h : Fits g path frames) : (waiting frames).length ≤ 1 := by
  induction h with
  | outermost => exact Nat.zero_le 1
  | alternative _ _ ih => exact ih
  | branch _ _ _ _ _ ih => exact ih
  | next _ ih => exact ih
  | script _ hwaiting _ _ => simp [waiting, hwaiting]

theorem Stacked.cons {node : Node String} (h : Stacked g path) (hopen : name ∉ path)
    (hb : g.branch? name = some node) (hname : Met g path (.inl name)) :
    Stacked g (name :: path) := by
  refine ⟨List.nodup_cons.mpr ⟨hopen, h.distinct⟩, ?_, ?_⟩
  · intro m hm
    rcases List.mem_cons.mp hm with rfl | hm
    · exact ⟨node, hb⟩
    · exact h.known m hm
  · cases path with
    | nil => exact .singleton name
    | cons outer path => exact .cons_cons hname h.linked

theorem Fits.stacked (h : Fits g path frames) :
    ∀ level ∈ (g, path) :: waiting frames, Stacked level.1 level.2 := by
  induction h with
  | outermost =>
      intro level hlevel
      obtain rfl := List.mem_singleton.mp hlevel
      exact stacked_nil
  | alternative _ _ ih => exact ih
  | branch hopen hb hname _ _ ih =>
      intro level hlevel
      rcases List.mem_cons.mp hlevel with rfl | hlevel
      · exact (ih _ List.mem_cons_self).cons hopen hb hname
      · exact ih level (List.mem_cons_of_mem _ hlevel)
  | next _ ih => exact ih
  | script _ _ _ ih =>
      intro level hlevel
      rcases List.mem_cons.mp hlevel with rfl | hlevel
      · exact stacked_nil
      · exact ih level hlevel

end fits

/-! ### Runs -/

/-- What is still to be expanded is met in the innermost open name, and the waiting calls fit. -/
structure Sound (r : Resolver) : Prop where
  met : ∀ x ∈ r.control.needs, Met r.grammar r.path x
  fits : Fits r.grammar r.path r.frames

section sound

variable {g : Grammar String} {path : List String} {name : String} {frames : List Frame}

theorem sound_result (result : Except GrammarError Expansion) (h : Fits g path frames) :
    Sound ⟨g, path, .result result, frames⟩ := ⟨by simp [Control.needs], h⟩

theorem sound_follow (result : Except GrammarError Expansion) {next : Continuation String}
    (hnext : ∀ x ∈ Node.nextNeeds next, Met g path x) (h : Fits g path frames) :
    Sound (follow g path result next frames) := by
  cases result with
  | error error => exact sound_result _ h
  | ok e =>
      cases next with
      | nothing => exact sound_result _ h
      | text text => exact sound_result _ h
      | node node => exact ⟨hnext, h.next⟩

theorem Sound.reference {next : Continuation String} {r' : Resolver}
    (hr : Sound ⟨g, path, .reference name next, frames⟩)
    (hs : step ⟨g, path, .reference name next, frames⟩ = some r') : Sound r' := by
  by_cases hopen : name ∈ path
  · rw [step_reference_of_mem hopen] at hs
    obtain rfl := Option.some.inj hs
    exact sound_result _ hr.fits
  · cases hb : g.branch? name with
    | none =>
        rw [step_reference_of_none hopen hb] at hs
        obtain rfl := Option.some.inj hs
        exact sound_result _ hr.fits
    | some node =>
        rw [step_reference_of_some hopen hb] at hs
        obtain rfl := Option.some.inj hs
        have hname := hr.met (.inl name) List.mem_cons_self
        have hnext := fun x hx => hr.met x (List.mem_cons_of_mem _ hx)
        exact ⟨fun x hx => ⟨node, hb, hx⟩, hr.fits.branch hopen hb hname hnext⟩

theorem Sound.script {done : Expansion} {rest : Node String} {text : String} {r' : Resolver}
    (hr : Sound ⟨g, path, .alternatives done (.script text :: rest), frames⟩)
    (hs : step ⟨g, path, .alternatives done (.script text :: rest), frames⟩ = some r') :
    Sound r' := by
  have hrest : Fits g path (.alternative done rest :: frames) :=
    hr.fits.alternative fun x hx => hr.met x (List.mem_cons_of_mem _ hx)
  cases h : (Grammar.ofScript text : Except GrammarError (Grammar String)) with
  | error error =>
      rw [step_script_of_error h] at hs
      obtain rfl := Option.some.inj hs
      exact sound_result _ hrest
  | ok inner =>
      rw [step_script_of_ok h] at hs
      obtain rfl := Option.some.inj hs
      -- Where a script is met, the grammar is not one of a script itself.
      have hwaiting := hr.fits.waiting_eq_nil (hr.met (.inr text) List.mem_cons_self)
      refine ⟨?_, .script (Grammar.scriptless_ofScript h) hwaiting hrest⟩
      intro x hx
      exact ⟨Grammar.mainBranch, List.mem_singleton.mp hx⟩

theorem Sound.alternatives {done : Expansion} {rest : Node String} {r' : Resolver}
    (hr : Sound ⟨g, path, .alternatives done rest, frames⟩)
    (hs : step ⟨g, path, .alternatives done rest, frames⟩ = some r') : Sound r' := by
  match rest with
  | [] =>
      obtain rfl := Option.some.inj hs
      exact sound_result _ hr.fits
  | .literal text :: rest =>
      obtain rfl := Option.some.inj hs
      exact ⟨hr.met, hr.fits⟩
  | .nested node :: rest =>
      obtain rfl := Option.some.inj hs
      exact ⟨fun x hx => hr.met x (List.mem_append_left _ hx),
        hr.fits.alternative fun x hx => hr.met x (List.mem_append_right _ hx)⟩
  | .reference name next :: rest =>
      obtain rfl := Option.some.inj hs
      have hneeds : ∀ x, x ∈ Node.needs (.reference name next :: rest) ↔
          x ∈ (Control.reference name next).needs ∨ x ∈ Node.needs rest := by
        simp [Node.needs, Control.needs, or_assoc]
      exact ⟨fun x hx => hr.met x ((hneeds x).mpr (.inl hx)),
        hr.fits.alternative fun x hx => hr.met x ((hneeds x).mpr (.inr hx))⟩
  | .script text :: rest => exact hr.script hs

theorem Sound.result {result : Except GrammarError Expansion} {r' : Resolver}
    (hr : Sound ⟨g, path, .result result, frames⟩)
    (hs : step ⟨g, path, .result result, frames⟩ = some r') : Sound r' := by
  obtain ⟨-, hfits⟩ := hr
  cases hfits with
  | outermost => cases hs
  | alternative hrest hframes =>
      cases result with
      | error error =>
          obtain rfl := Option.some.inj hs
          exact sound_result _ hframes
      | ok e =>
          obtain rfl := Option.some.inj hs
          exact ⟨hrest, hframes⟩
  | branch hopen hb hname hnext hframes =>
      obtain rfl := Option.some.inj hs
      exact sound_follow result hnext hframes
  | next hframes =>
      obtain rfl := Option.some.inj hs
      exact sound_result _ hframes
  | script hinner hwaiting hframes =>
      obtain rfl := Option.some.inj hs
      exact sound_result _ hframes

/-- One step keeps a resolver sound. -/
theorem Sound.step {r r' : Resolver} (hr : Sound r) (hs : r.step = some r') : Sound r' := by
  obtain ⟨g, path, control, frames⟩ := r
  cases control with
  | reference name next => exact hr.reference hs
  | alternatives done rest => exact hr.alternatives hs
  | result result => exact hr.result hs

theorem sound_start (g : Grammar String) (name : String) : Sound (start g name) :=
  ⟨fun _ hx => ⟨name, List.mem_singleton.mp hx⟩, .outermost⟩

/-- A whole run keeps a resolver sound. -/
theorem Sound.reaches {r r' : Resolver} (hr : Sound r) (h : Reaches r r') : Sound r' := by
  induction h with
  | refl => exact hr
  | tail _ hs ih => exact ih.step hs

end sound

/-- A run that comes to an end does not go on forever. -/
theorem Reaches.not_forever {r r' : Resolver} (h : Reaches r r') (hend : r'.step = none)
    (run : ℕ → Resolver) (hstart : run 0 = r) : ¬ ∀ n, (run n).step = some (run (n + 1)) := by
  induction h using ReflTransGen.head_induction_on generalizing run with
  | refl =>
      intro hrun
      have hs := hrun 0
      rw [hstart, hend] at hs
      cases hs
  | head hs _ ih =>
      intro hrun
      -- The run after its first step starts where the remaining steps do.
      have hnext : run 1 = _ := Option.some.inj ((hrun 0).symm.trans (hstart ▸ hs))
      exact ih (fun n => run (n + 1)) hnext fun n => hrun (n + 1)

/-! ### The main result -/

/-- A moment at which nothing is wrong with the path. -/
structure Orderly (r : Resolver) : Prop where
  /-- The open names of each grammar are different branches, each of which refers to the next. -/
  stacked : ∀ level ∈ r.levels, Stacked level.1 level.2
  /-- No more names are open in a grammar than it has branches. -/
  short : ∀ level ∈ r.levels, level.2.length ≤ level.1.branches.size
  /-- The innermost call returns, with an expansion or an error, and leaves the path as it is. -/
  returns : (∀ result, r.control ≠ .result result) →
    ∃ result, Runs r.frames r { r with control := .result result }
  /-- At most one script is being expanded. -/
  single : (waiting r.frames).length ≤ 1
  /-- While a script is being expanded, the grammar has no script. -/
  scriptless : waiting r.frames ≠ [] → r.grammar.Scriptless

theorem Sound.orderly {r : Resolver} (h : Sound r) : Orderly r where
  stacked := h.fits.stacked
  short := fun level hlevel => (h.fits.stacked level hlevel).length_le
  returns := exists_runs_result r
  single := h.fits.length_waiting_le
  scriptless := h.fits.scriptless

/-- **Expanding terminates in every grammar.**  The run that sets out to expand a branch ends, after
finitely many steps, in the expansion of the branch, and it does not go on forever.  At each of its
moments the open names are different branches of the grammar and no more than it has, the innermost
call is to return with the path that it has now, with an expansion or an error, and no script is
being expanded inside another one: the grammar of a script has none. -/
theorem start_terminates (g : Grammar String) (name : String) :
    (Reaches (start g name) (finish g (g.expansion name)) ∧
      (finish g (g.expansion name)).step = none ∧
      ∀ run : ℕ → Resolver, run 0 = start g name → ¬ ∀ n, (run n).step = some (run (n + 1))) ∧
    (∀ r, Reaches (start g name) r → Orderly r) ∧
    ∀ text (inner : Grammar String), Grammar.ofScript text = .ok inner → inner.Scriptless := by
  have hend := reaches_finish g name
  refine ⟨⟨hend, rfl, ?_⟩, ?_, ?_⟩
  · intro run hstart
    exact hend.not_forever rfl run hstart
  · intro r hr
    exact ((sound_start g name).reaches hr).orderly
  · intro text inner h
    exact Grammar.scriptless_ofScript h

/-- From the names `main`, `a` and `b` a cycle is met, after a script was expanded on a path of its own
while all three were open. -/
theorem start_terminates_cycle :
    let g : Grammar String := ⟨.ofList [("a", [.literal "x", .reference "b" .nothing]),
      ("b", [.script "hi", .reference "a" (.text " you")]), ("main", [.reference "a" .nothing])],
      "main"⟩
    let hi : Grammar String := ⟨.ofList [("main", [.literal "hi"])], "main"⟩
    Reaches (start g "main") (finish g (.error (.cyclicBranch "a"))) ∧
      ∃ r, Reaches (start g "main") r ∧ r.levels = [(hi, ["main"]), (g, ["b", "a", "main"])] ∧
        Orderly r := by
  intro g hi
  have hmain : g.branch? "main" = some [.reference "a" .nothing] := by decide +kernel
  have ha : g.branch? "a" = some [.literal "x", .reference "b" .nothing] := by decide +kernel
  have hb : g.branch? "b" = some [.script "hi", .reference "a" (.text " you")] := by decide +kernel
  have hscript : (Grammar.ofScript "hi" : Except GrammarError (Grammar String)) = .ok hi := by
    decide +kernel
  have hhi : hi.branch? "main" = some [.literal "hi"] := by decide +kernel
  refine ⟨?_, ?_⟩
  · have herror : g.expansion "main" = .error (.cyclicBranch "a") := by
      have htext : Grammar.expandScript "hi" = .ok (.text "hi") := by
        rw [Grammar.expandScript_eq, hscript]
        show hi.expandBranch _ _ "main" = _
        rw [Grammar.expandBranch_of_some (by decide) hhi]
        rfl
      have hin : g.expandBranch Grammar.expandScript ["a", "main"] "b" =
          .error (.cyclicBranch "a") := by
        rw [Grammar.expandBranch_of_some (by decide) hb, Node.expand, htext, Node.expand,
          Grammar.expandBranch_of_mem (by decide)]
        rfl
      have hout : g.expandBranch Grammar.expandScript ["main"] "a" =
          .error (.cyclicBranch "a") := by
        rw [Grammar.expandBranch_of_some (by decide) ha, Node.expand, Node.expand, hin]
        rfl
      unfold Grammar.expansion
      rw [Grammar.expandBranch_of_some (by decide) hmain, Node.expand, hout]
      rfl
    rw [← herror]
    exact (start_terminates g "main").1.1
  · have hmoment : Reaches (start g "main") _ :=
      .head (step_reference_of_some (by decide) hmain) <| .head rfl <|
      .head (step_reference_of_some (by decide) ha) <| .head rfl <| .head rfl <|
      .head (step_reference_of_some (by decide) hb) <| .head (step_script_of_ok hscript) <|
      .head (step_reference_of_some (by decide) hhi) .refl
    exact ⟨_, hmoment, rfl, (start_terminates g "main").2.1 _ hmoment⟩

end Resolver
end Typeahead
