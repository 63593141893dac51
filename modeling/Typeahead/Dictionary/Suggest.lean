import Typeahead.Dictionary
import Typeahead.Dictionary.Search
import Typeahead.Grammar.Expand
import Typeahead.Slug

/-! # Suggestions

A suggestion completes the end of a text.  Of its last words those that follow the last delimiter
are candidates, and the slug of the longest run of them at the end of the text that is a key with a
completion is the one that is found. -/

namespace Typeahead

/-- What completes the end of a text. -/
structure Suggestion where
  /-- The key that was found. -/
  key : String
  /-- The number of words that the key was made from. -/
  matchedWords : Nat
  /-- The completions, none of which is empty. -/
  completions : List String
  deriving DecidableEq, Repr

/-- The JSON form of a suggestion. -/
def Suggestion.toJson (s : Suggestion) : Json :=
  .object [("completions", .ofTexts s.completions), ("key", .text s.key),
    ("matched_words", .ofNat s.matchedWords)]

namespace Search

/-- What of a text follows the last occurrence of a character. -/
def afterLast (c : Char) (text : String) : String :=
  .ofList ((text.toList.splitOn c).getLast?.getD [])

/-- The words that follow the last occurrence of a delimiter. -/
def cut (ws : List String) (delimiter : Char) : List String :=
  words (afterLast delimiter (joinWords ws))

/-- The last `n` items of a list. -/
def lastItems {α : Type} (n : Nat) (l : List α) : List α := l.drop (l.length - n)

/-- The words of a text that may form a key: its last words, as many as the window has, cut after
each delimiter. -/
def candidates (s : Search) (text : String) : List String :=
  s.delimiters.foldl cut (lastItems s.window (words text))

/-- The key that some words form. -/
def key (ws : List String) : String := slug "_" (joinWords ws)

end Search

namespace Dictionary

/-- The completions that a grammar gives, empty ones included. -/
def completions (s : Search) (g : Grammar String) :
    StateM Draws (Except GrammarError (List String)) :=
  match s.mode with
  | .one => (· <&> fun word => [word]) <$> g.sample
  | .all => return g.firstWords s.maxResults

/-- Looks up the key of all given words, then that of all but the first, and so on, until a key with
a completion that is not empty is found. -/
def suggestFrom (d : Dictionary) (s : Search) :
    List String → StateM Draws (Except GrammarError (Option Suggestion))
  | [] => return .ok none
  | word :: rest => do
    match d.get? (Search.key (word :: rest)) with
    | none => suggestFrom d s rest
    | some g =>
      match ← completions s g with
      | .error error => return .error error
      | .ok found =>
        let found := found.filter (· ≠ "")
        if found = [] then suggestFrom d s rest
        else return .ok (some ⟨Search.key (word :: rest), rest.length + 1, found⟩)

/-- What completes the end of a text; nothing, if the text has no slug. -/
def suggest (d : Dictionary) (s : Search) (text : String) :
    StateM Draws (Except GrammarError (Option Suggestion)) :=
  if slug "_" text = "" then return .ok none else suggestFrom d s (s.candidates text)

end Dictionary

/-- A text with a completion at its end, parted by a space unless the text is empty or ends with a
blank. -/
def withCompletion (text completion : String) : String :=
  match text.toList.getLast? with
  | none => completion
  | some c => if isBlank c then text ++ completion else text ++ " " ++ completion

end Typeahead
