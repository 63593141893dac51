/-! # Capital and small letters

Unicode gives a capital letter its small one and a small letter its capital.  The tables hold the
letters of the blocks Latin-1 Supplement, Latin Extended-A and Latin Extended Additional, and five of
Latin Extended-B.  The letters from `a` to `z` are those of the core library, and every other
character stands for itself in both directions. -/

namespace Typeahead

/-- Capital letters, in rows, each row with their small letters at the same places. -/
def letterRows : List (String × String) :=
  [("ÀÁÂÃÄÅÆÇÈÉÊËÌÍÎÏÐÑÒÓÔÕÖØÙÚÛÜÝÞ",
    "àáâãäåæçèéêëìíîïðñòóôõöøùúûüýþ"),
   ("ĀĂĄĆĈĊČĎĐĒĔĖĘĚĜĞĠĢĤĦĨĪĬĮĲĴĶĹĻĽĿ",
    "āăąćĉċčďđēĕėęěĝğġģĥħĩīĭįĳĵķĺļľŀ"),
   ("ŁŃŅŇŊŌŎŐŒŔŖŘŚŜŞŠŢŤŦŨŪŬŮŰŲŴŶŸŹŻŽ",
    "łńņňŋōŏőœŕŗřśŝşšţťŧũūŭůűųŵŷÿźżž"),
   ("ƠƯǪǬǴ",
    "ơưǫǭǵ"),
   ("ḀḂḄḆḈḊḌḎḐḒḔḖḘḚḜḞḠḢḤḦḨḪḬḮḰḲḴḶḸḺḼḾṀṂṄṆṈṊ",
    "ḁḃḅḇḉḋḍḏḑḓḕḗḙḛḝḟḡḣḥḧḩḫḭḯḱḳḵḷḹḻḽḿṁṃṅṇṉṋ"),
   ("ṌṎṐṒṔṖṘṚṜṞṠṢṤṦṨṪṬṮṰṲṴṶṸṺṼṾẀẂẄẆẈẊẌẎẐẒẔ",
    "ṍṏṑṓṕṗṙṛṝṟṡṣṥṧṩṫṭṯṱṳṵṷṹṻṽṿẁẃẅẇẉẋẍẏẑẓẕ"),
   ("ẠẢẤẦẨẪẬẮẰẲẴẶẸẺẼẾỀỂỄỆỈỊỌỎ",
    "ạảấầẩẫậắằẳẵặẹẻẽếềểễệỉịọỏ"),
   ("ỐỒỔỖỘỚỜỞỠỢỤỦỨỪỬỮỰỲỴỶỸỺỼỾ",
    "ốồổỗộớờởỡợụủứừửữựỳỵỷỹỻỽỿ")]

/-- The capital letters of `letterRows`, each with its small letter. -/
def letterPairs : List (Char × Char) :=
  letterRows.flatMap fun row => row.1.toList.zip row.2.toList

/-- Capital letters that are not the capital letters of their small ones: an I with a dot, which
leaves the dot behind, a sharp S, and the signs for kelvin and angstrom. -/
def oddCapitals : List (Char × List Char) :=
  [('\u0130', ['i', '\u0307']), ('\u1e9e', ['ß']), ('\u212a', ['k']), ('\u212b', ['å'])]

/-- The other letter of the pair that has a letter on the one side. -/
def partner (side other : Char × Char → Char) (c : Char) : Char :=
  match letterPairs.find? fun pair => side pair == c with
  | some pair => other pair
  | none => c

/-- The small letter of a letter. -/
def small (c : Char) : Char := if c.toNat < 128 then c.toLower else partner (·.1) (·.2) c

/-- The capital letter of a letter. -/
def capital (c : Char) : Char := if c.toNat < 128 then c.toUpper else partner (·.2) (·.1) c

/-- A character in small letters. -/
def lowered (c : Char) : List Char :=
  match oddCapitals.find? fun odd => odd.1 == c with
  | some odd => odd.2
  | none => [small c]

end Typeahead
