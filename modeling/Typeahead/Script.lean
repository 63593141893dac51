/-! # Scripts of literals and groups

A script is text in which `(a|b|c)` stands for one of `a`, `b` and `c`.  Groups do not nest, a bar
outside a group is plain text, and there is no way to write a parenthesis.  `Script.parts` splits a
script into its literals and groups or says which parenthesis is at fault; `Script.render` writes
parts back. -/

namespace Typeahead

/-- A piece of a script. -/
inductive Part where
  /-- Text outside the groups. -/
  | literal (text : String)
  /-- A choice between alternatives, in their order. -/
  | group (alternatives : List String)
  deriving DecidableEq, Repr

namespace Script

/-- What can be wrong with a parenthesis. -/
inductive Reason where
  /-- An opening parenthesis inside a group. -/
  | nested
  /-- A closing parenthesis outside the groups. -/
  | unmatched
  /-- A group that is never closed. -/
  | unclosed
  deriving DecidableEq, Repr

/-- The sentence that reports the reason. -/
def Reason.message : Reason → String
  | .nested => "nested groups are not supported"
  | .unmatched => "unmatched ')'"
  | .unclosed => "unclosed '('"

/-- A parenthesis at fault. -/
structure Fault where
  /-- The number of characters before the parenthesis. -/
  offset : Nat
  reason : Reason
  deriving DecidableEq, Repr

/-- The sentence that reports the fault. -/
def Fault.message (fault : Fault) : String :=
  "parse error at offset " ++ toString fault.offset ++ ": " ++ fault.reason.message

/-! ### Splitting a script -/

/-- The literal for text read outside the groups, held back to front; nothing if it is empty. -/
def literal (back : List Char) : List Part :=
  if back = [] then [] else [.literal (.ofList back.reverse)]

/-- The group for text read between two parentheses, held back to front. -/
def group (back : List Char) : Part :=
  .group ((back.reverse.splitOn '|').map String.ofList)

mutual

/-- Reads on outside the groups, `offset` characters into the script. -/
def outside (offset : Nat) (back : List Char) : List Char → Except Fault (List Part)
  | [] => .ok (literal back)
  | c :: rest =>
    if c = '(' then (literal back ++ ·) <$> inside offset (offset + 1) [] rest
    else if c = ')' then .error ⟨offset, .unmatched⟩
    else outside (offset + 1) (c :: back) rest

/-- Reads on inside the group that was opened at `start`. -/
def inside (start offset : Nat) (back : List Char) : List Char → Except Fault (List Part)
  | [] => .error ⟨start, .unclosed⟩
  | c :: rest =>
    if c = '(' then .error ⟨offset, .nested⟩
    else if c = ')' then (group back :: ·) <$> outside (offset + 1) [] rest
    else inside start (offset + 1) (c :: back) rest

end

/-- The literals and groups of a script, or its first parenthesis at fault. -/
def parts (script : String) : Except Fault (List Part) := outside 0 [] script.toList

/-! ### Writing parts -/

/-- A part as it stands in a script. -/
def renderPart : Part → String
  | .literal text => text
  | .group alternatives => "(" ++ "|".intercalate alternatives ++ ")"

/-- The script in which the given parts follow each other. -/
def render (ps : List Part) : String := String.join (ps.map renderPart)

end Script

end Typeahead
