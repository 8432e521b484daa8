/-!
# Sets of characters as ranges

A set of characters is a list of code point ranges, both ends included.
-/

namespace RowStore.Text

/-- Whether a character's code point lies in one of the ranges. -/
def inRanges (ranges : List (Nat × Nat)) (c : Char) : Bool :=
  ranges.any fun r => r.1 ≤ c.toNat && c.toNat ≤ r.2

end RowStore.Text
