import Typeahead.Json.Number

/-! # Tokens of JSON text

Blanks part tokens and are otherwise dropped; only the space, the tab, the line feed and the
carriage return are blank here.  The text of a string is unescaped: a character below U+0020 must
be escaped, and an escaped surrogate must be one half of a pair. -/

namespace Typeahead.Json

/-- A token of JSON text. -/
inductive Token where
  | openArray | closeArray | openObject | closeObject | comma | colon
  | null
  | boolean (value : Bool)
  | number (literal : String)
  | text (value : String)
  deriving DecidableEq, Repr

namespace Token

/-- What the lexer is inside of.  Characters that were read so far are held back to front. -/
inductive Mode where
  /-- Between tokens. -/
  | between
  /-- Inside a run of letters. -/
  | word (back : List Char)
  /-- Inside a number. -/
  | number (back : List Char)
  /-- Inside a string. -/
  | text (back : List Char)
  /-- After a backslash inside a string. -/
  | escape (back : List Char)
  /-- Inside the four digits of an escape, after the first half of a surrogate pair if any. -/
  | unit (back : List Char) (high : Option Nat) (value count : Nat)
  /-- After the first half of a surrogate pair: the backslash of the second is due. -/
  | half (back : List Char) (high : Nat)
  /-- After the first half of a surrogate pair and a backslash. -/
  | halfEscape (back : List Char) (high : Nat)

/-- The value of a hexadecimal digit. -/
def hexDigit? (c : Char) : Option Nat :=
  if c.isDigit then some (c.toNat - '0'.toNat)
  else if 'a' ≤ c ∧ c ≤ 'f' then some (c.toNat - 'a'.toNat + 10)
  else if 'A' ≤ c ∧ c ≤ 'F' then some (c.toNat - 'A'.toNat + 10)
  else none

/-- The character that a one-letter escape stands for. -/
def escaped? : Char → Option Char
  | '"' => some '"'
  | '\\' => some '\\'
  | '/' => some '/'
  | 'b' => some '\x08'
  | 'f' => some '\x0c'
  | 'n' => some '\n'
  | 'r' => some '\r'
  | 't' => some '\t'
  | _ => none

/-- The token of a run of letters. -/
def ofWord? (back : List Char) : Option Token :=
  if back.reverse = ['n', 'u', 'l', 'l'] then some .null
  else if back.reverse = ['t', 'r', 'u', 'e'] then some (.boolean true)
  else if back.reverse = ['f', 'a', 'l', 's', 'e'] then some (.boolean false)
  else none

/-- The token of a run of characters that began like a number. -/
def ofNumber? (back : List Char) : Option Token :=
  if isNumber back.reverse then some (.number (.ofList back.reverse)) else none

/-- Whether a number may go on with the character. -/
def isNumeric (c : Char) : Bool := c.isDigit || c = '+' || c = '-' || c = '.' || c = 'e' || c = 'E'

/-- Where a string goes on after an escaped UTF-16 unit. -/
def afterUnit (back : List Char) : Option Nat → Nat → Option Mode
  | none, v =>
    if 0xD800 ≤ v ∧ v < 0xDC00 then some (.half back v)
    else if 0xDC00 ≤ v ∧ v < 0xE000 then none
    else some (.text (Char.ofNat v :: back))
  | some high, v =>
    if 0xDC00 ≤ v ∧ v < 0xE000 then
      some (.text (Char.ofNat (0x10000 + (high - 0xD800) * 0x400 + (v - 0xDC00)) :: back))
    else none

/-- The lexer: what it is inside of, and the tokens it has read, back to front. -/
structure Lexer where
  mode : Mode
  back : List Token

/-- Reads a character between tokens. -/
def begin (back : List Token) (c : Char) : Option Lexer :=
  match c with
  | ' ' | '\t' | '\n' | '\r' => some ⟨.between, back⟩
  | '[' => some ⟨.between, .openArray :: back⟩
  | ']' => some ⟨.between, .closeArray :: back⟩
  | '{' => some ⟨.between, .openObject :: back⟩
  | '}' => some ⟨.between, .closeObject :: back⟩
  | ',' => some ⟨.between, .comma :: back⟩
  | ':' => some ⟨.between, .colon :: back⟩
  | '"' => some ⟨.text [], back⟩
  | c =>
    if c.isDigit || c = '-' then some ⟨.number [c], back⟩
    else if c.isLower then some ⟨.word [c], back⟩
    else none

/-- Reads a character. -/
def Lexer.step (l : Lexer) (c : Char) : Option Lexer :=
  match l.mode with
  | .between => begin l.back c
  | .word back =>
    if c.isLower then some ⟨.word (c :: back), l.back⟩
    else do begin ((← ofWord? back) :: l.back) c
  | .number back =>
    if isNumeric c then some ⟨.number (c :: back), l.back⟩
    else do begin ((← ofNumber? back) :: l.back) c
  | .text back =>
    if c = '"' then some ⟨.between, .text (.ofList back.reverse) :: l.back⟩
    else if c = '\\' then some ⟨.escape back, l.back⟩
    else if c.toNat < 0x20 then none
    else some ⟨.text (c :: back), l.back⟩
  | .escape back =>
    if c = 'u' then some ⟨.unit back none 0 0, l.back⟩
    else do some ⟨.text ((← escaped? c) :: back), l.back⟩
  | .unit back high value count => do
    let value := 16 * value + (← hexDigit? c)
    if count = 3 then some ⟨← afterUnit back high value, l.back⟩
    else some ⟨.unit back high value (count + 1), l.back⟩
  | .half back high => if c = '\\' then some ⟨.halfEscape back high, l.back⟩ else none
  | .halfEscape back high => if c = 'u' then some ⟨.unit back (some high) 0 0, l.back⟩ else none

/-- The tokens that were read when the text ends. -/
def Lexer.finish (l : Lexer) : Option (List Token) :=
  match l.mode with
  | .between => some l.back.reverse
  | .word back => do some ((← ofWord? back) :: l.back).reverse
  | .number back => do some ((← ofNumber? back) :: l.back).reverse
  | _ => none

/-- The tokens of a text, if it consists of tokens and blanks. -/
def ofText? (text : String) : Option (List Token) := do
  (← text.toList.foldlM Lexer.step ⟨.between, []⟩).finish

end Token

end Typeahead.Json
