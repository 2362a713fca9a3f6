/-!
# Code points — finite tables of characters

A Unicode property is kept as the ascending list of its inclusive ranges.  A character belongs to
the property iff one of the ranges holds its code point.
-/

namespace CallSite

/-- A set of code points, as inclusive ranges. -/
structure CodePoints where
  /-- The first and the last code point of each run. -/
  ranges : List (Nat × Nat)

/-- Whether the code point of `c` lies in one of the ranges. -/
def CodePoints.contains (s : CodePoints) (c : Char) : Bool :=
  s.ranges.any fun r => r.1 ≤ c.toNat && c.toNat ≤ r.2

end CallSite
