import Typeahead.Service.Answer
import Typeahead.Service.Request

/-! # The service

The service completes texts from the dictionaries it has loaded, expands grammars that it is sent,
and lists and loads the dictionaries of its folder.  Only loading changes what it serves, and only
if every dictionary that is named can be loaded; what it served before is then replaced. -/

namespace Typeahead

/-- What is served, the folder that dictionaries are loaded from, and the disk it lies on. -/
structure Site where
  dictionary : Dictionary
  folder : Path
  disk : Disk

namespace Site

/-- Loads the named dictionaries in place of those that are served.  If one of them cannot be
loaded, nothing else is served than before; caches are written all the same. -/
def load (site : Site) (names : String) : Except LoadError Unit × Site :=
  match Dictionary.loadNamed site.disk site.folder names with
  | (.ok dictionary, disk) => (.ok (), { site with dictionary, disk })
  | (.error error, disk) => (.error error, { site with disk })

end Site

namespace Service

/-- The search that the parameters ask for, settled in the order of window and limit. -/
def searchFor (p : Request.SuggestParameters) : Except SearchError Search := do
  let s := Search.new (p.mode.getD .one)
  let s ← match p.window with
    | some window => s.withWindow window
    | none => .ok s
  s.withMaxResults p.maxResults

/-- Completes a text. -/
def suggest (draws : Draws) (d : Dictionary) (p : Request.SuggestParameters) : Answer :=
  match searchFor p with
  | .error error => .refused error
  | .ok s =>
    match (d.suggest s p.text draws).1 with
    | .ok (some found) => .suggestion found
    | .ok none | .error _ => .nothing

/-- The phrases of a grammar that are wanted. -/
def phrases (draws : Draws) (g : Grammar String) (mode : Mode) (maxResults : Option Nat) :
    Except GrammarError (List String) :=
  match mode with
  | .one => (fun word => [word]) <$> (g.sample draws).1
  | .all =>
    match maxResults with
    | some limit => g.firstWords limit
    | none => g.words

/-- Expands a source. -/
def expand (draws : Draws) (p : Request.ExpandParameters) : Answer :=
  if p.maxResults = some 0 then .refused .zeroResults
  else
    match do phrases draws (← Grammar.compile p.source) (p.mode.getD .all) p.maxResults with
    | .ok texts => .texts texts
    | .error error => .rejected error

/-- Lists the dictionaries of the folder. -/
def dictionaries (site : Site) : Answer :=
  match site.disk.list site.folder "json" with
  | .ok names => .texts names
  | .error _ => .listFailed

/-- Loads the dictionaries that are named. -/
def loadNamed (site : Site) (names : Option String) : Answer × Site :=
  match names with
  | none => (.unnamed, site)
  | some names =>
    if trim names = "" then (.unnamed, site)
    else
      match site.load (trim names) with
      | (.ok (), site) => (.loaded, site)
      | (.error error, site) => (.loadFailed error, site)

/-- The answer to parameters that fit, and `unfit` to others. -/
def fitting {α : Type} (answer : α → Answer) : Option α → Answer
  | some p => answer p
  | none => .unfit

/-- Answers a request. -/
def handle (draws : Draws) (site : Site) (r : Request) : Answer × Site :=
  match r.method, r.path with
  | "GET", "/v1/suggest" =>
    (fitting (suggest draws site.dictionary) (Request.suggest? r.query), site)
  | "GET", "/v1/expand" => (fitting (expand draws) (Request.expandQuery? r.query), site)
  | "POST", "/v1/expand" => (fitting (expand draws) (r.body.bind Request.expandBody?), site)
  | "GET", "/v1/dictionaries" => (dictionaries site, site)
  | "GET", "/v1/loaded_dictionaries" => (.texts site.dictionary.names, site)
  | "PUT", "/v1/load_dictionaries" =>
    match Request.optional? r.query "names" with
    | some names => loadNamed site names
    | none => (.unfit, site)
  | _, _ => (.unrouted, site)

end Service

end Typeahead
