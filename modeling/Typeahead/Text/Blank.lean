/-! # Blank characters and words

A character is blank if it has the Unicode property `White_Space`.  The words of a text are its
longest runs of characters that are not blank; they do not depend on how many blanks stand between
them, before the first or after the last. -/

namespace Typeahead

/-- The ranges of characters with the property `White_Space`. -/
def blankRanges : List (Char × Char) :=
  [('\t', '\r'), (' ', ' '), ('\u0085', '\u0085'), ('\u00a0', '\u00a0'), ('\u1680', '\u1680'),
   ('\u2000', '\u200a'), ('\u2028', '\u2029'), ('\u202f', '\u202f'), ('\u205f', '\u205f'),
   ('\u3000', '\u3000')]

/-- Whether a character is blank. -/
def isBlank (c : Char) : Bool := blankRanges.any fun r => r.1 ≤ c && c ≤ r.2

/-- The text without the blanks at its two ends. -/
def trim (text : String) : String :=
  .ofList (((text.toList.dropWhile isBlank).reverse.dropWhile isBlank).reverse)

/-- The words of a text, from left to right. -/
def words (text : String) : List String :=
  ((text.toList.splitOnP isBlank).filter (· ≠ [])).map String.ofList

/-- One text in which the words stand with a single space between them. -/
def joinWords (ws : List String) : String := " ".intercalate ws

end Typeahead
