/-
  Classes of characters given by ranges of code points.
-/

namespace Stacklet.Text

/-- Whether the code point of `c` lies in one of the ranges, ends included. -/
def inRanges (ranges : Array (Nat × Nat)) (c : Char) : Bool :=
  ranges.any fun (first, last) => first ≤ c.toNat && c.toNat ≤ last

end Stacklet.Text
