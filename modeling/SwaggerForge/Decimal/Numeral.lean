/-!
# Numerals

Reading numbers written in decimal digits. Three kinds of number are read
from text: **counts**, which have a largest value and report what is wrong
with them; **integers** of 64 bits; and **numerals**, digits with a point
and a power of ten, whose exact value a `Numeral` keeps.

Powers are written as `Nat.pow` and `Int.pow`, so that what they mean does not
depend on which algebra is at hand.
-/

namespace SwaggerForge

/-- **A decimal numeral**: the exact number `± digits · 10 ^ exponent`. -/
structure Numeral where
  /-- Whether it carries a minus sign. -/
  negative : Bool
  /-- All digits read as one natural number. -/
  digits : Nat
  /-- The power of ten that places the point. -/
  exponent : Int
deriving DecidableEq, Repr, Inhabited

/-- What can be wrong with a count. -/
inductive CountFault where
  /-- There is no character at all. -/
  | empty
  /-- A character is not a decimal digit. -/
  | invalidDigit
  /-- The value is beyond the largest count. -/
  | tooLarge
deriving DecidableEq, Repr

/-- The wording of a fault. -/
def CountFault.message : CountFault → String
  | .empty => "cannot parse integer from empty string"
  | .invalidDigit => "invalid digit found in string"
  | .tooLarge => "number too large to fit in target type"

namespace Numeral

/-- The value of an ASCII decimal digit. -/
def digit? (c : Char) : Option Nat :=
  if c.isDigit then some (c.toNat - '0'.toNat) else none

/-- The number that digits denote; characters that are no digits count as
nothing. -/
def ofDigits (cs : List Char) : Nat :=
  cs.foldl (fun n c => 10 * n + (digit? c).getD 0) 0

/-- Splits off the leading digits. -/
def spanDigits (cs : List Char) : List Char × List Char :=
  (cs.takeWhile Char.isDigit, cs.dropWhile Char.isDigit)

/-- The largest number of 64 bits without a sign. -/
def countLimit : Nat := Nat.pow 2 64 - 1

/-- Reads further digits of a count behind the value read so far. At each
character a wrong digit is noticed before an excessive value. -/
def extendCount : Nat → List Char → Except CountFault Nat
  | n, [] => .ok n
  | n, c :: rest =>
    match digit? c with
    | none => .error .invalidDigit
    | some d =>
      if countLimit < 10 * n + d then .error .tooLarge else extendCount (10 * n + d) rest

/-- **Reads a count**: digits, with an optional plus sign in front. -/
def parseCount (text : String) : Except CountFault Nat :=
  match text.toList with
  | [] => .error .empty
  | ['+'] => .error .invalidDigit
  | '+' :: rest => extendCount 0 rest
  | cs => extendCount 0 cs

/-- **Reads an integer of 64 bits**: digits, with an optional sign in
front. -/
def parseInt? (text : String) : Option Int :=
  let (negative, ds) := match text.toList with
    | '-' :: rest => (true, rest)
    | '+' :: rest => (false, rest)
    | cs => (false, cs)
  if ds ≠ [] ∧ ds.all Char.isDigit then
    let n : Int := if negative then -(ofDigits ds : Int) else ofDigits ds
    if -Int.pow 2 63 ≤ n ∧ n < Int.pow 2 63 then some n else none
  else none

/-- Reads the exponent part of a numeral: nothing, or `e` and a signed
number. -/
def parseExponent? : List Char → Option Int
  | [] => some 0
  | c :: rest =>
    if c = 'e' ∨ c = 'E' then
      let (negative, ds) := match rest with
        | '-' :: ds => (true, ds)
        | '+' :: ds => (false, ds)
        | ds => (false, ds)
      if ds ≠ [] ∧ ds.all Char.isDigit then
        some (if negative then -(ofDigits ds : Int) else ofDigits ds)
      else none
    else none

/-- **Reads a numeral**: an optional sign, digits with at most one point
among them, at least one digit, and an optional power of ten. -/
def parse? (text : String) : Option Numeral :=
  let (negative, cs) := match text.toList with
    | '-' :: rest => (true, rest)
    | '+' :: rest => (false, rest)
    | cs => (false, cs)
  let (whole, rest) := spanDigits cs
  let (fraction, rest) := match rest with
    | '.' :: rest => spanDigits rest
    | _ => ([], rest)
  if whole = [] ∧ fraction = [] then none
  else (parseExponent? rest).map fun e =>
    ⟨negative, ofDigits (whole ++ fraction), e - fraction.length⟩

end Numeral

end SwaggerForge
