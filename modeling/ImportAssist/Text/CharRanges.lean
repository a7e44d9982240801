/-!
# Sets of characters

A set of characters given by the code points of its runs, both ends included.
-/

namespace ImportAssist

abbrev CharRanges := List (Nat × Nat)

def CharRanges.contains (ranges : CharRanges) (c : Char) : Bool :=
  ranges.any fun (low, high) => low ≤ c.toNat && c.toNat ≤ high

end ImportAssist
