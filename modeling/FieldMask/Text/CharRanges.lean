/-!
# Ranges of characters

A class of characters beyond ASCII is a list of ranges of code points, both ends included, in
ascending order.
-/

namespace FieldMask

/-- Whether a code point lies in one of the ranges. -/
def inRanges (ranges : List (Nat × Nat)) (code : Nat) : Bool :=
  ranges.any (fun r => r.1 ≤ code && code ≤ r.2)

end FieldMask
