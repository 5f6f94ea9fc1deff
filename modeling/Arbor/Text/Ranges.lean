import Arbor.Text.Basic

set_option autoImplicit false

/-! # Sets of code points given by ranges -/

namespace Arbor.CodePoint

/-- Whether `c` lies in one of the ranges, both ends included. -/
def inRanges (ranges : List (Nat × Nat)) (c : CodePoint) : Bool :=
  ranges.any fun r => r.1 ≤ c.val && c.val ≤ r.2

end Arbor.CodePoint
