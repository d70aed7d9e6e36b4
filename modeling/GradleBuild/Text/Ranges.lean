/-!
# Ranges of code points

A character class is given by its closed ranges of code points, in increasing order.
-/

namespace GradleBuild

/-- Whether a code point lies in one of the ranges. -/
def inRanges (ranges : List (Nat × Nat)) (c : Char) : Bool :=
  ranges.any fun r => r.1 ≤ c.toNat && c.toNat ≤ r.2

end GradleBuild
