/-!
# Bisection

The halving search that position tables use. On a table in ascending order it finds the last index whose key
is low enough; on any table the index it returns is one whose key is.
-/
namespace Linkage.Position

/-- Halve `size` indices from `base` on: the search moves up to each probed index where `low` holds. -/
def bisect (low : Nat → Bool) (base size : Nat) : Nat :=
  if size ≤ 1 then base
  else
    let middle := base + size / 2
    bisect low (if low middle then middle else base) (size - size / 2)
termination_by size

/-- The index where bisecting `0 .. size` ends, unless even that one is not low. -/
def lastLow? (low : Nat → Bool) (size : Nat) : Option Nat :=
  if size = 0 then none
  else
    let index := bisect low 0 size
    if low index then some index else none

end Linkage.Position
