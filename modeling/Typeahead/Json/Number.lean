import Typeahead.Json

/-! # Numbers in JSON text

A numeral is a sign, a whole part without superfluous zeros, an optional fraction and an optional
exponent.  It counts as a number only if a double can hold it: its digits are gathered into a
significand below 2^64, digits beyond which only move the point, and the significand times its power
of ten, both rounded to doubles, must not round to infinity. -/

namespace Typeahead.Json

/-- A numeral taken apart. -/
structure Numeral where
  negative : Bool
  whole : List Char
  fraction : List Char
  /-- The exponent, with its digits and whether it is negative. -/
  exponent : Option (Bool × List Char)
  deriving DecidableEq, Repr

namespace Numeral

/-- Splits off the leading digits. -/
def digits (cs : List Char) : List Char × List Char :=
  (cs.takeWhile Char.isDigit, cs.dropWhile Char.isDigit)

/-- Splits off a fraction: a point and at least one digit, or nothing. -/
def fraction? : List Char → Option (List Char × List Char)
  | '.' :: cs => if (digits cs).1 = [] then none else some (digits cs)
  | cs => some ([], cs)

/-- Splits off an exponent: its letter, an optional sign and at least one digit, or nothing. -/
def exponent? : List Char → Option (Option (Bool × List Char) × List Char)
  | [] => some (none, [])
  | c :: cs =>
    if c = 'e' ∨ c = 'E' then
      let (negative, rest) : Bool × List Char :=
        match cs with
        | '+' :: rest => (false, rest)
        | '-' :: rest => (true, rest)
        | rest => (false, rest)
      if (digits rest).1 = [] then none
      else some (some (negative, (digits rest).1), (digits rest).2)
    else some (none, c :: cs)

/-- Whether a run of digits may be the whole part: one digit, or several of which the first is not
zero. -/
def isWhole : List Char → Bool
  | [] => false
  | [_] => true
  | c :: _ => c ≠ '0'

/-- Takes a numeral apart, which must take up all characters. -/
def ofChars? (cs : List Char) : Option Numeral :=
  let (negative, unsigned) : Bool × List Char :=
    match cs with
    | '-' :: rest => (true, rest)
    | rest => (false, rest)
  let (whole, rest) := digits unsigned
  if isWhole whole then
    match fraction? rest with
    | none => none
    | some (fraction, rest) =>
      match exponent? rest with
      | some (exponent, []) => some ⟨negative, whole, fraction, exponent⟩
      | _ => none
  else none

/-! ### Doubles -/

/-- The largest significand. -/
def maxSignificand : Nat := UInt64.size - 1

/-- A significand, the exponent of ten that goes with it, and whether it is full. -/
structure Scaled where
  significand : Nat
  exponent : Int
  full : Bool

/-- Appends a digit of the whole part.  Once a digit does not fit, it and all later ones only move
the point. -/
def Scaled.whole (s : Scaled) (c : Char) : Scaled :=
  let next := 10 * s.significand + (c.toNat - '0'.toNat)
  if s.full ∨ maxSignificand < next then { s with exponent := s.exponent + 1, full := true }
  else { s with significand := next }

/-- Appends a digit of the fraction.  Once a digit does not fit, it and all later ones are
dropped. -/
def Scaled.fraction (s : Scaled) (c : Char) : Scaled :=
  let next := 10 * s.significand + (c.toNat - '0'.toNat)
  if s.full ∨ maxSignificand < next then { s with full := true }
  else { s with significand := next, exponent := s.exponent - 1 }

/-- The significand of a numeral and its exponent of ten. -/
def scaled (n : Numeral) : Scaled :=
  let whole := n.whole.foldl Scaled.whole ⟨0, 0, false⟩
  let s := n.fraction.foldl Scaled.fraction { whole with full := false }
  match n.exponent with
  | none => s
  | some (negative, digits) =>
    let e : Int := natOfDigits digits
    { s with exponent := if negative then s.exponent - e else s.exponent + e }

/-- A natural number rounded to 53 significant binary digits, a half going to the even
neighbour. -/
def round53 (n : Nat) : Nat :=
  if n < Nat.pow 2 53 then n
  else
    let unit := Nat.pow 2 (n.log2 - 52)
    let low := n / unit
    let rest := n % unit
    if unit < 2 * rest ∨ (unit = 2 * rest ∧ low % 2 = 1) then (low + 1) * unit else low * unit

/-- The least natural number that rounds to infinity. -/
def infinite : Nat := Nat.pow 2 1024 - Nat.pow 2 970

/-- Whether the numeral is a finite double. -/
def isFinite (n : Numeral) : Bool :=
  let s := n.scaled
  s.significand = 0 ||
    (s.exponent ≤ 308 && round53 s.significand * round53 (Nat.pow 10 s.exponent.toNat) < infinite)

end Numeral

/-- Whether the characters write a number. -/
def isNumber (cs : List Char) : Bool :=
  match Numeral.ofChars? cs with
  | some n => n.isFinite
  | none => false

end Typeahead.Json
