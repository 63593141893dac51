import Typeahead.Proofs.Scriptless

/-! # Expanding step by step

`Grammar.expansion` is defined by recursion, so that it has no moments between its beginning and its
end.  A `Resolver` does the same work in small steps.  It holds the path of open names as a stack,
onto which a name is put before the node of its branch is expanded, and from which it is taken
afterwards, and it holds a frame for each call that waits for another one.  A script is expanded as
a grammar of its own, on an empty path, while the grammar and the path around it wait in a frame.

Every call that a resolver makes returns: it ends in the result that the recursion gives, above the
same frames, with the same grammar and the same path (`Resolver.runs_reference`,
`Resolver.runs_alternatives`). -/

namespace Typeahead

open Relation (ReflTransGen)
open Grammar (expandScript)

namespace Expansion

/-- The literals and the branches of both expansions, at one position. -/
def beside (e f : Expansion) : Expansion := ⟨e.literals ++ f.literals, e.branches ++ f.branches⟩

theorem empty_beside (e : Expansion) : empty.beside e = e := by
  cases e
  simp [beside, empty]

theorem beside_empty (e : Expansion) : e.beside empty = e := by
  cases e
  simp [beside, empty]

theorem beside_addLiteral (e f : Expansion) (t : String) :
    (e.beside (text t)).beside f = e.beside (f.addLiteral t) := by
  simp [beside, text, addLiteral]

theorem beside_addBranch (e f branch : Expansion) :
    (e.beside ⟨[], [branch]⟩).beside f = e.beside (f.addBranch branch) := by
  simp [beside, addBranch]

end Expansion

namespace Resolver

/-- A call that waits for another one. -/
inductive Frame where
  /-- An alternative is being expanded: what those before it came to, and those after it. -/
  | alternative (done : Expansion) (rest : Node String)
  /-- The node of a branch is being expanded, and `next` is to follow. -/
  | branch (name : String) (next : Continuation String)
  /-- What follows the expansion of a branch is being expanded. -/
  | next (e : Expansion)
  /-- A script is being expanded: the grammar around it, and the path in that grammar. -/
  | script (grammar : Grammar String) (path : List String)

/-- What is done next. -/
inductive Control where
  /-- A reference is met. -/
  | reference (name : String) (next : Continuation String)
  /-- The alternatives of a node are expanded in order, after those that came to `done`. -/
  | alternatives (done : Expansion) (rest : Node String)
  /-- A call returns. -/
  | result (r : Except GrammarError Expansion)

end Resolver

open Resolver (Frame Control)

/-- A resolver at one moment of its work. -/
structure Resolver where
  grammar : Grammar String
  /-- The names of the branches whose nodes are being expanded, the innermost of them first. -/
  path : List String
  control : Control
  /-- The calls that wait, the innermost of them first. -/
  frames : List Frame

namespace Resolver

/-! ### Steps -/

/-- What comes after the node of a branch was expanded and the name of the branch was taken off the
path. -/
def follow (g : Grammar String) (path : List String) (r : Except GrammarError Expansion)
    (next : Continuation String) (frames : List Frame) : Resolver :=
  match r, next with
  | .error error, _ => ⟨g, path, .result (.error error), frames⟩
  | .ok e, .nothing => ⟨g, path, .result (.ok e), frames⟩
  | .ok e, .text text => ⟨g, path, .result (.ok (e.append (.text text))), frames⟩
  | .ok e, .node node => ⟨g, path, .alternatives .empty node, .next e :: frames⟩

/-- One step.  There is none after the outermost call has returned. -/
def step : Resolver → Option Resolver
  | ⟨g, path, .reference name next, frames⟩ =>
    if name ∈ path then some ⟨g, path, .result (.error (.cyclicBranch name)), frames⟩
    else match g.branch? name with
      | none => some ⟨g, path, .result (.error (.unknownBranch name)), frames⟩
      | some node => some ⟨g, name :: path, .alternatives .empty node, .branch name next :: frames⟩
  | ⟨g, path, .alternatives done [], frames⟩ => some ⟨g, path, .result (.ok done), frames⟩
  | ⟨g, path, .alternatives done (.literal text :: rest), frames⟩ =>
    some ⟨g, path, .alternatives (done.beside (.text text)) rest, frames⟩
  | ⟨g, path, .alternatives done (.nested node :: rest), frames⟩ =>
    some ⟨g, path, .alternatives .empty node, .alternative done rest :: frames⟩
  | ⟨g, path, .alternatives done (.reference name next :: rest), frames⟩ =>
    some ⟨g, path, .reference name next, .alternative done rest :: frames⟩
  | ⟨g, path, .alternatives done (.script text :: rest), frames⟩ =>
    match Grammar.ofScript text with
    | .error error => some ⟨g, path, .result (.error error), .alternative done rest :: frames⟩
    | .ok inner => some ⟨inner, [], .reference Grammar.mainBranch .nothing,
        .script g path :: .alternative done rest :: frames⟩
  | ⟨_, _, .result _, []⟩ => none
  | ⟨g, path, .result (.error error), .alternative _ _ :: frames⟩ =>
    some ⟨g, path, .result (.error error), frames⟩
  | ⟨g, path, .result (.ok e), .alternative done rest :: frames⟩ =>
    some ⟨g, path, .alternatives (done.beside ⟨[], [e]⟩) rest, frames⟩
  | ⟨g, path, .result r, .branch _ next :: frames⟩ => some (follow g path.tail r next frames)
  | ⟨g, path, .result r, .next e :: frames⟩ =>
    some ⟨g, path, .result (e.append <$> r), frames⟩
  | ⟨_, _, .result r, .script g path :: frames⟩ => some ⟨g, path, .result r, frames⟩

/-- The resolver that sets out to expand a branch of a grammar. -/
def start (g : Grammar String) (name : String) : Resolver := ⟨g, [], .reference name .nothing, []⟩

/-- The resolver at the end of its work. -/
def finish (g : Grammar String) (r : Except GrammarError Expansion) : Resolver :=
  ⟨g, [], .result r, []⟩

/-- The second resolver is the first one after some steps. -/
def Reaches : Resolver → Resolver → Prop := ReflTransGen fun r r' => r.step = some r'

section step

variable {g : Grammar String} {path : List String} {name : String} {next : Continuation String}
variable {done : Expansion} {rest : Node String} {text : String} {frames : List Frame}

theorem step_reference_of_mem (h : name ∈ path) :
    step ⟨g, path, .reference name next, frames⟩ =
      some ⟨g, path, .result (.error (.cyclicBranch name)), frames⟩ := by
  rw [step, if_pos h]

theorem step_reference_of_none (h : name ∉ path) (hb : g.branch? name = none) :
    step ⟨g, path, .reference name next, frames⟩ =
      some ⟨g, path, .result (.error (.unknownBranch name)), frames⟩ := by
  rw [step, if_neg h, hb]

theorem step_reference_of_some {node : Node String} (h : name ∉ path)
    (hb : g.branch? name = some node) :
    step ⟨g, path, .reference name next, frames⟩ =
      some ⟨g, name :: path, .alternatives .empty node, .branch name next :: frames⟩ := by
  rw [step, if_neg h, hb]

theorem step_script_of_error {error : GrammarError}
    (h : (Grammar.ofScript text : Except GrammarError (Grammar String)) = .error error) :
    step ⟨g, path, .alternatives done (.script text :: rest), frames⟩ =
      some ⟨g, path, .result (.error error), .alternative done rest :: frames⟩ := by
  rw [step, h]

theorem step_script_of_ok {inner : Grammar String} (h : Grammar.ofScript text = .ok inner) :
    step ⟨g, path, .alternatives done (.script text :: rest), frames⟩ =
      some ⟨inner, [], .reference Grammar.mainBranch .nothing,
        .script g path :: .alternative done rest :: frames⟩ := by
  rw [step, h]

theorem follow_nothing (r : Except GrammarError Expansion) :
    follow g path r .nothing frames = ⟨g, path, .result r, frames⟩ := by
  cases r <;> rfl

end step

/-! ### Calls -/

/-- The call above the given frames has not returned: it is at work itself, or it waits for another
call. -/
def Inside (frames : List Frame) (r : Resolver) : Prop :=
  ∃ calls, r.frames = calls ++ frames ∧ (calls = [] → ∀ result, r.control ≠ .result result)

/-- The second resolver is the first one after some steps of the call above the given frames. -/
def Runs (frames : List Frame) : Resolver → Resolver → Prop :=
  ReflTransGen fun r r' => Inside frames r ∧ r.step = some r'

section runs

variable {g : Grammar String} {path : List String} {control : Control} {frame : Frame}
variable {frames : List Frame} {r r' r'' : Resolver}

theorem Inside.of_cons (h : Inside (frame :: frames) r) : Inside frames r := by
  obtain ⟨calls, hcalls, -⟩ := h
  refine ⟨calls ++ [frame], ?_, ?_⟩
  · rw [hcalls, List.append_assoc]
    rfl
  · intro hnil
    simp at hnil

theorem Runs.reaches (h : Runs frames r r') : Reaches r r' :=
  ReflTransGen.mono (fun _ _ hs => hs.2) _ _ h

/-- A step that a call takes itself. -/
theorem Runs.own (hc : ∀ result, control ≠ .result result)
    (hs : step ⟨g, path, control, frames⟩ = some r) (hr : Runs frames r r') :
    Runs frames ⟨g, path, control, frames⟩ r' :=
  .head ⟨⟨[], rfl, fun _ => hc⟩, hs⟩ hr

/-- A step by which a call that was made returns. -/
theorem Runs.back (hs : step ⟨g, path, control, frame :: frames⟩ = some r)
    (hr : Runs frames r r') : Runs frames ⟨g, path, control, frame :: frames⟩ r' :=
  .head ⟨⟨[frame], rfl, fun h => absurd h (List.cons_ne_nil _ _)⟩, hs⟩ hr

/-- The steps of a call that is made are steps of the call that makes it. -/
theorem Runs.call (h : Runs (frame :: frames) r r') (h' : Runs frames r' r'') :
    Runs frames r r'' := by
  have hmono : Runs frames r r' := ReflTransGen.mono (fun _ _ hs => ⟨hs.1.of_cons, hs.2⟩) _ _ h
  exact hmono.trans h'

end runs

/-! ### Every call returns -/

section calls

variable {g : Grammar String} {path : List String}

/-- A reference leads to where its branch was expanded. -/
def RunsBranches (g : Grammar String) (path : List String) : Prop :=
  ∀ name next frames, Runs frames ⟨g, path, .reference name next, frames⟩
    (follow g path (g.expandBranch expandScript path name) next frames)

/-- A script leads to where it was expanded. -/
def RunsScript (g : Grammar String) (path : List String) (text : String) : Prop :=
  ∀ done rest frames, Runs frames ⟨g, path, .alternatives done (.script text :: rest), frames⟩
    ⟨g, path, .result (expandScript text), .alternative done rest :: frames⟩

theorem map_empty_beside (r : Except GrammarError Expansion) :
    Expansion.empty.beside <$> r = r := by
  cases r with
  | error error => rfl
  | ok e => exact congrArg Except.ok (Expansion.empty_beside e)

/-- After an alternative that is no literal was expanded, its expansion is put beside what was done
before, and the other alternatives are expanded; an error is passed on. -/
theorem runs_back_alternative {done : Expansion} {rest : Node String} {frames : List Frame}
    {others : Except GrammarError Expansion} (r : Except GrammarError Expansion)
    (hrest : ∀ done, Runs frames ⟨g, path, .alternatives done rest, frames⟩
      ⟨g, path, .result (done.beside <$> others), frames⟩) :
    Runs frames ⟨g, path, .result r, .alternative done rest :: frames⟩
      ⟨g, path, .result (done.beside <$> do
        let e ← r
        return (← others).addBranch e), frames⟩ := by
  cases r with
  | error error => exact .back rfl .refl
  | ok e =>
      have hothers : (done.beside ⟨[], [e]⟩).beside <$> others =
          (done.beside <$> do return (← others).addBranch e) := by
        cases others with
        | error error => rfl
        | ok f => exact congrArg Except.ok (Expansion.beside_addBranch done f e)
      have hrun := hrest (done.beside ⟨[], [e]⟩)
      rw [hothers] at hrun
      exact .back rfl hrun

mutual

/-- The alternatives of a node are expanded as the node is, beside what was done before. -/
theorem runs_node (hbranch : RunsBranches g path) : ∀ (node : Node String)
    (_ : ∀ text, .inr text ∈ Node.needs node → RunsScript g path text) (done : Expansion)
    (frames : List Frame),
    Runs frames ⟨g, path, .alternatives done node, frames⟩
      ⟨g, path, .result (done.beside <$>
        Node.expand (g.expandBranch expandScript path) expandScript node), frames⟩
  | [], _, done, frames => by
      rw [Node.expand]
      refine .own (by simp) rfl ?_
      show Runs frames _ ⟨g, path, .result (.ok (done.beside .empty)), frames⟩
      rw [Expansion.beside_empty]
      exact .refl
  | .literal text :: rest, hscript, done, frames => by
      have hrest := runs_node hbranch rest hscript (done.beside (.text text)) frames
      rw [Node.expand]
      refine .own (by simp) rfl ?_
      cases h : Node.expand (g.expandBranch expandScript path) expandScript rest with
      | error error =>
          rw [h] at hrest
          exact hrest
      | ok e =>
          rw [h] at hrest
          show Runs frames _ ⟨g, path, .result (.ok (done.beside (e.addLiteral text))), frames⟩
          rw [← Expansion.beside_addLiteral]
          exact hrest
  | .nested node :: rest, hscript, done, frames => by
      have hnode := runs_node hbranch node (fun text h => hscript text (List.mem_append_left _ h))
        .empty (.alternative done rest :: frames)
      have hrest := fun done => runs_node hbranch rest
        (fun text h => hscript text (List.mem_append_right _ h)) done frames
      rw [map_empty_beside] at hnode
      rw [Node.expand]
      exact .own (by simp) rfl (.call hnode (runs_back_alternative _ hrest))
  | .reference name next :: rest, hscript, done, frames => by
      have hname := hbranch name next (.alternative done rest :: frames)
      have hnext := runs_follow hbranch next
        (fun text h => hscript text (List.mem_cons_of_mem _ (List.mem_append_left _ h)))
        (g.expandBranch expandScript path name) (.alternative done rest :: frames)
      have hrest := fun done => runs_node hbranch rest
        (fun text h => hscript text (List.mem_cons_of_mem _ (List.mem_append_right _ h))) done frames
      rw [Node.expand, ← bind_assoc]
      exact .own (by simp) rfl (.call (hname.trans hnext) (runs_back_alternative _ hrest))
  | .script text :: rest, hscript, done, frames => by
      have htext := hscript text List.mem_cons_self done rest frames
      have hrest := fun done => runs_node hbranch rest
        (fun text h => hscript text (List.mem_cons_of_mem _ h)) done frames
      rw [Node.expand]
      exact htext.trans (runs_back_alternative _ hrest)

theorem runs_follow (hbranch : RunsBranches g path) : ∀ (next : Continuation String)
    (_ : ∀ text, .inr text ∈ Node.nextNeeds next → RunsScript g path text)
    (r : Except GrammarError Expansion) (frames : List Frame),
    Runs frames (follow g path r next frames)
      ⟨g, path, .result (do
        Node.expandNext (g.expandBranch expandScript path) expandScript (← r) next), frames⟩
  | _, _, .error error, frames => .refl
  | .nothing, _, .ok e, frames => .refl
  | .text text, _, .ok e, frames => .refl
  | .node node, hscript, .ok e, frames => by
      have hnode := runs_node hbranch node hscript .empty (.next e :: frames)
      rw [map_empty_beside] at hnode
      have hnext : Node.expandNext (g.expandBranch expandScript path) expandScript e (.node node) =
          e.append <$> Node.expand (g.expandBranch expandScript path) expandScript node := by
        rw [Node.expandNext]
        exact bind_pure_comp _ _
      refine .call hnode (.back rfl ?_)
      rw [← hnext]
      exact .refl

end

theorem runsBranches_of_scripts
    (hscript : ∀ name node text, g.branch? name = some node → .inr text ∈ Node.needs node →
      ∀ path, RunsScript g path text) (path : List String) : RunsBranches g path := by
  intro name
  induction path, name using Grammar.expandBranch.induct g with
  | case1 path name hmem =>
      intro next frames
      rw [Grammar.expandBranch_of_mem hmem]
      exact .own (by simp) (step_reference_of_mem hmem) .refl
  | case2 path name hmem hb =>
      intro next frames
      rw [Grammar.expandBranch_of_none hmem hb]
      exact .own (by simp) (step_reference_of_none hmem hb) .refl
  | case3 path name hmem node hb ih =>
      intro next frames
      have hnode := runs_node ih node (fun text h => hscript name node text hb h (name :: path))
        .empty (.branch name next :: frames)
      rw [map_empty_beside] at hnode
      rw [Grammar.expandBranch_of_some hmem hb]
      exact .own (by simp) (step_reference_of_some hmem hb) (.call hnode (.back rfl .refl))

/-- A script leads to where it was expanded: its grammar holds no script. -/
theorem runsScript (g : Grammar String) (path : List String) (text : String) :
    RunsScript g path text := by
  intro done rest frames
  rw [Grammar.expandScript_eq]
  cases h : (Grammar.ofScript text : Except GrammarError (Grammar String)) with
  | error error => exact .own (by simp) (step_script_of_error h) .refl
  | ok inner =>
      have hinner := Grammar.scriptless_ofScript h
      have hmain := runsBranches_of_scripts
        (fun name node text hb ht => absurd ht (hinner name node text hb)) []
        Grammar.mainBranch .nothing (.script g path :: .alternative done rest :: frames)
      rw [follow_nothing] at hmain
      exact .own (by simp) (step_script_of_ok h) (.call (.call hmain (.back rfl .refl)) .refl)

theorem runsBranches (g : Grammar String) (path : List String) : RunsBranches g path :=
  runsBranches_of_scripts (fun _ _ text _ _ path => runsScript g path text) path

/-- A call that expands a reference returns what the reference expands to. -/
theorem runs_reference (name : String) (next : Continuation String) (frames : List Frame) :
    Runs frames ⟨g, path, .reference name next, frames⟩
      ⟨g, path, .result (do
        let e ← g.expandBranch expandScript path name
        Node.expandNext (g.expandBranch expandScript path) expandScript e next), frames⟩ := by
  have hname := runsBranches g path name next frames
  have hnext := runs_follow (runsBranches g path) next
    (fun text _ => runsScript g path text) (g.expandBranch expandScript path name) frames
  exact hname.trans hnext

theorem runs_alternatives (done : Expansion) (rest : Node String) (frames : List Frame) :
    Runs frames ⟨g, path, .alternatives done rest, frames⟩
      ⟨g, path, .result (done.beside <$>
        Node.expand (g.expandBranch expandScript path) expandScript rest), frames⟩ :=
  runs_node (runsBranches g path) rest (fun text _ => runsScript g path text) done frames

/-- Every call returns, with the grammar and the path that it found. -/
theorem exists_runs_result (r : Resolver) (hr : ∀ result, r.control ≠ .result result) :
    ∃ result, Runs r.frames r { r with control := .result result } := by
  obtain ⟨g, path, control, frames⟩ := r
  cases control with
  | reference name next => exact ⟨_, runs_reference name next frames⟩
  | alternatives done rest => exact ⟨_, runs_alternatives done rest frames⟩
  | result result => exact absurd rfl (hr result)

/-- The run from the start ends in the expansion of the branch. -/
theorem reaches_finish (g : Grammar String) (name : String) :
    Reaches (start g name) (finish g (g.expansion name)) := by
  have h := runsBranches g [] name .nothing []
  rw [follow_nothing] at h
  exact h.reaches

end calls

end Resolver
end Typeahead
