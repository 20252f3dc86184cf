import SwaggerForge.Decimal.Binary64

/-!
# The shortest decimal text of a binary number

Around a binary64 number lie the reals that round to it. Among the decimal
grids `10 ^ k` the coarsest that meets this interval gives the fewest digits
that read back as the number (`Binary64.shortest`), and of the grid's
points in the interval the one nearest to the number is taken.

The text (`Binary64.text`) writes these digits around a point when the
leading digit is worth at least `10 ^ -5` and less than `10 ^ 16`, with at
least one digit on either side of the point, and otherwise with a signed
power of ten.
-/

namespace SwaggerForge

namespace Binary64

/-- `base ^ e` where the exponent is positive, and one elsewhere. -/
def powPositive (base : Nat) (e : Int) : Nat := Nat.pow base e.toNat

/-- Four times the number, scaled to the common denominator of `10 ^ k` and
`2 ^ q`. -/
def scaledValue (m : Nat) (q k : Int) : Nat := 4 * m * powPositive 2 q * powPositive 10 (-k)

/-- Four times the step of the grid `10 ^ k` in the same scale. -/
def scaledStep (q k : Int) : Nat := 4 * powPositive 10 k * powPositive 2 (-q)

/-- **Whether a decimal reads back as the number**: `c · 10 ^ k` lies in the
interval of reals that round to `m · 2 ^ q`. The interval reaches half a unit
to either side, a quarter below a power of two, and includes its ends when
`m` is even. -/
def readsBack (m : Nat) (q : Int) (c : Nat) (k : Int) : Bool :=
  let v := scaledValue m q k
  let d := c * scaledStep q k
  let above := 2 * powPositive 2 q * powPositive 10 (-k)
  let below := if m = Nat.pow 2 52 ∧ -1074 < q then above / 2 else above
  if m % 2 = 0 then v ≤ d + below ∧ d ≤ v + above else v < d + below ∧ d < v + above

/-- The point of the grid `10 ^ k` that reads back as the number, the nearer
one if both neighbours do. -/
def gridPoint? (m : Nat) (q k : Int) : Option Nat :=
  let v := scaledValue m q k
  let u := scaledStep q k
  let c := v / u
  match readsBack m q c k, readsBack m q (c + 1) k with
  | true, true =>
    let low := v - c * u
    let high := (c + 1) * u - v
    some (if low < high then c else if high < low then c + 1 else c + c % 2)
  | true, false => some c
  | false, true => some (c + 1)
  | false, false => none

/-- Tries the grids `10 ^ (n - 325)`, coarser ones first. The finest of them
meets the interval of every number of the format. -/
def coarsest (m : Nat) (q : Int) : Nat → Nat × Int
  | 0 => (0, 0)
  | n + 1 =>
    match gridPoint? m q ((n : Int) - 324) with
    | some c => (c, (n : Int) - 324)
    | none => coarsest m q n

/-- **The shortest decimal** `c · 10 ^ k` that reads back as the number. -/
def shortest (x : Binary64) : Nat × Int := coarsest x.significand x.exponent 634

/-- The digits of a number written with a point whose place is `10 ^ k` below
the last digit, and at least one digit on either side. -/
def positional (digits : List Char) (k : Int) : List Char :=
  if 0 ≤ k then digits ++ List.replicate k.toNat '0' ++ ['.', '0']
  else
    let places := (-k).toNat
    if places < digits.length then
      digits.take (digits.length - places) ++ '.' :: digits.drop (digits.length - places)
    else '0' :: '.' :: List.replicate (places - digits.length) '0' ++ digits

/-- The digits of a number written with one digit before the point and a
signed power of ten. -/
def scientific (digits : List Char) (e : Int) : List Char :=
  let mantissa := match digits with
    | [] => []
    | [d] => [d]
    | d :: rest => d :: '.' :: rest
  let sign := if e < 0 then '-' else '+'
  mantissa ++ 'e' :: sign :: Nat.toDigits 10 e.natAbs

/-- **The text of a number**: the shortest digits that read back, around a
point for magnitudes from `10 ^ -5` up to `10 ^ 16` and with a power of ten
beyond. -/
def text (x : Binary64) : String :=
  let body :=
    if x.significand = 0 then ['0', '.', '0']
    else
      let (c, k) := x.shortest
      let digits := Nat.toDigits 10 c
      let e : Int := k + digits.length - 1
      if -5 ≤ e ∧ e < 16 then positional digits k else scientific digits e
  String.ofList (if x.negative then '-' :: body else body)

end Binary64

end SwaggerForge
