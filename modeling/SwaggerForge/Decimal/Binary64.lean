import SwaggerForge.Decimal.Numeral

/-!
# Binary floating-point numbers of 64 bits

A finite number of the 64-bit binary format is `± significand · 2 ^ exponent`
with a significand of at most 53 bits. `Binary64` keeps exactly those
three parts in their one canonical form, so equal numbers are equal values
and everything about them is arithmetic on natural numbers.

`Binary64.ofNumeral?` is the reading of a decimal numeral: the nearest
number of the format, a tie going to the even significand, and nothing when
the numeral is beyond the largest one.
-/

namespace SwaggerForge

/-- Quotient rounded to the nearest integer, a half going to the even
neighbour. -/
def roundHalfEven (num den : Nat) : Nat :=
  let q := num / den
  let r := num % den
  if 2 * r < den then q
  else if den < 2 * r then q + 1
  else if q % 2 = 0 then q else q + 1

/-- **A finite binary64 number** in canonical form. -/
structure Binary64 where
  /-- Whether it carries a minus sign; zero has both signs. -/
  negative : Bool
  /-- The significand. -/
  significand : Nat
  /-- The power of two it is scaled by. -/
  exponent : Int
  /-- The significand fits, the exponent is in range, and the leading bit
  is used unless the exponent is the least one. -/
  canonical : significand < Nat.pow 2 53 ∧ -1074 ≤ exponent ∧ exponent ≤ 971
    ∧ (Nat.pow 2 52 ≤ significand ∨ exponent = -1074)
deriving DecidableEq, Repr

namespace Binary64

/-- Zero, with either sign. -/
def zero (negative : Bool) : Binary64 := ⟨negative, 0, -1074, by decide⟩

instance : Inhabited Binary64 := ⟨zero false⟩

/-- The number with the given parts, if they are canonical. -/
def ofParts? (negative : Bool) (m : Nat) (q : Int) : Option Binary64 :=
  if h : m < Nat.pow 2 53 ∧ -1074 ≤ q ∧ q ≤ 971 ∧ (Nat.pow 2 52 ≤ m ∨ q = -1074) then
    some ⟨negative, m, q, h⟩
  else none

/-- The greatest `l` with `2 ^ l ≤ num / den`, for positive arguments. -/
def floorLog2 (num den : Nat) : Int :=
  let l : Int := (num.log2 : Int) - den.log2
  let reached :=
    if 0 ≤ l then den * Nat.pow 2 l.toNat ≤ num else den ≤ num * Nat.pow 2 (-l).toNat
  if reached then l else l - 1

/-- **The number nearest to a quotient**, a tie going to the even
significand; none when it is too large for the format. -/
def ofQuotient? (negative : Bool) (num den : Nat) : Option Binary64 :=
  if num = 0 then some (zero negative)
  else
    let q : Int := max (floorLog2 num den - 52) (-1074)
    let m :=
      if 0 ≤ q then roundHalfEven num (den * Nat.pow 2 q.toNat)
      else roundHalfEven (num * Nat.pow 2 (-q).toNat) den
    if m = Nat.pow 2 53 then ofParts? negative (Nat.pow 2 52) (q + 1)
    else ofParts? negative m q

/-- **The number nearest to a decimal numeral.** Numerals far outside the
range of the format are settled by their magnitude alone, before any power
is computed. -/
def ofNumeral? (n : Numeral) : Option Binary64 :=
  let magnitude : Int := n.exponent + (Nat.toDigits 10 n.digits).length
  if n.digits = 0 ∨ magnitude < -330 then some (zero n.negative)
  else if 310 < magnitude then none
  else if 0 ≤ n.exponent then ofQuotient? n.negative (n.digits * Nat.pow 10 n.exponent.toNat) 1
  else ofQuotient? n.negative n.digits (Nat.pow 10 (-n.exponent).toNat)

/-- Whether two numbers are equal as numbers: the two zeros are. -/
def same (x y : Binary64) : Bool :=
  x = y ∨ (x.significand = 0 ∧ y.significand = 0)

end Binary64

end SwaggerForge
