/-!
# Sets of characters given by ranges

A character property is tabulated as a list of code point ranges, both ends included.
-/

namespace ParamStream.Text

/-- Whether the code point of `c` lies in one of the ranges. -/
def inRanges (ranges : List (Nat × Nat)) (c : Char) : Bool :=
  ranges.any fun (lo, hi) => lo ≤ c.toNat && c.toNat ≤ hi

end ParamStream.Text
