/-!
# Sets of characters

A set of characters given by the code points at which membership changes.
-/

namespace SwaggerForge

/-- **A set of characters**: membership changes at each boundary, the code
points below the first one being outside. -/
structure CharSet where
  /-- The code points at which membership changes, in ascending order. -/
  boundaries : List Nat

/-- Whether a character is in the set: an odd number of boundaries lies at or
below it. -/
def CharSet.contains (s : CharSet) (c : Char) : Bool :=
  (s.boundaries.takeWhile (· ≤ c.toNat)).length % 2 = 1

end SwaggerForge
