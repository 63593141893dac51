import Typeahead.Text.Blank
import Typeahead.Text.Case

/-! # Slugs

The slug of a text keeps of each character only what can be spelled with the letters `a` to `z`
and the ten digits: letters are lowered and lose their accents, blanks and a few marks part the
spelling into pieces, an ampersand is a piece of its own, and everything else is dropped.  The
pieces are then joined by a separator, so a slug never begins or ends with a separator and never
has two in a row. -/

namespace Typeahead

namespace Slug

/-- Letters and marks outside `a` to `z`, in rows, each row with the spelling of its letters.  The
first row that has a letter or its capital counts.  A dash parts two pieces. -/
def foldRows : List (String × String) :=
  [("ÀÁÂÃÅÆĀĂĄẠẢẤẦẨẪẬẮẰẲẴẶ", "a"),
   ("ÄÆ", "ae"),
   ("ÇĆĈČ", "c"),
   ("ÐĎĐÞ", "d"),
   ("ÈÉÊËĒĔĖĘĚẸẺẼẾỀỂỄỆ", "e"),
   ("ĜĞĢǴ", "g"),
   ("ĤḦ", "h"),
   ("ÌÍÎÏĨĪĮİỈỊ", "i"),
   ("Ĵ", "j"),
   ("Ĳ", "ij"),
   ("Ķ", "k"),
   ("ĹĻĽŁ", "l"),
   ("Ḿ", "m"),
   ("ÑŃŅŇ", "n"),
   ("ÒÓÔÕØŌŎŐỌỎỐỒỔỖỘỚỜỞỠỢǪǬƠ", "o"),
   ("ŒÖØ", "oe"),
   ("Ṕ", "p"),
   ("ŔŖŘ", "r"),
   ("ŚŜŞŠ", "s"),
   ("ß", "ss"),
   ("ŢŤ", "t"),
   ("ÙÚÛŨŪŬŮŰŲỤỦỨỪỬỮỰƯ", "u"),
   ("Ü", "ue"),
   ("ẂŴẀẄ", "w"),
   ("Ẍ", "x"),
   ("ÝŶŸỲỴỶỸ", "y"),
   ("ŹŻŽ", "z"),
   ("·/_,:;'", "-")]

/-- The rows of `foldRows` as characters. -/
def folds : List (List Char × List Char) :=
  foldRows.map fun row => (row.1.toList, row.2.toList)

/-- The spelling that the rows give to a small letter or a mark. -/
def fold? (c : Char) : Option (List Char) :=
  (folds.find? fun row => row.1.contains c || row.1.contains (capital c)).map (·.2)

/-- The spelling of a character of a lowered text. -/
def spellLowered (c : Char) : List Char :=
  if isBlank c || c = '-' then ['-']
  else if c.isAlphanum then [c]
  else (fold? c).getD (if c = '&' then ['-', 'a', 'n', 'd', '-'] else [])

/-- The spelling of one character: letters and digits, with a dash where a piece ends. -/
def spell (c : Char) : List Char := (lowered c).flatMap spellLowered

/-- The pieces of a text: the longest runs of letters and digits in its spelling. -/
def pieces (text : String) : List String :=
  (((text.toList.flatMap spell).splitOn '-').filter (· ≠ [])).map String.ofList

end Slug

/-- The pieces of a text, joined by the separator. -/
def slug (separator text : String) : String := separator.intercalate (Slug.pieces text)

end Typeahead
