/-!
# Slices

Positions in a list as a slice counts them: below zero from the end, past the end at the end.
-/

namespace ImportAssist

/-- The number of elements in front of an index, of `length` elements. -/
def slicePosition (length : Nat) (index : Int) : Nat :=
  if index < 0 then (length + index).toNat else min index.toNat length

/-- The elements of a list in front of an index. -/
def sliceTo {α : Type} (list : List α) (index : Int) : List α :=
  list.take (slicePosition list.length index)

end ImportAssist
