/-!
Sets of characters given by intervals of code points.

A `Ranges` value lists disjoint closed intervals in increasing order. Membership walks the list and
stops at the first interval that starts above the code point, so the common characters, which lie
in the first intervals, are decided after a few comparisons.
-/

namespace Pseudocode.Text

/-- Closed intervals of code points, disjoint and in increasing order. -/
abbrev Ranges := List (Nat × Nat)

namespace Ranges

/-- Is the code point in one of the intervals? -/
def contains : Ranges → Nat → Bool
  | [], _ => false
  | (lo, hi) :: rest, n => if n < lo then false else n ≤ hi || contains rest n

end Ranges

end Pseudocode.Text
