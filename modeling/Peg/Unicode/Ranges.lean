/-!
Sets of characters given by the ranges of their code points.
-/

namespace Peg.Unicode

/-- Whether `n` lies in one of the ranges, which are sorted and do not overlap. -/
def inRanges (n : Nat) : List (Nat × Nat) → Bool
  | [] => false
  | (first, last) :: ranges => first ≤ n && (n ≤ last || inRanges n ranges)

end Peg.Unicode
