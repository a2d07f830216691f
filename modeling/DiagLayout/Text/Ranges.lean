/-!
# Tables of code point ranges

A character property is given by the increasing list of the closed ranges of code points that have
it. The search stops at the first range that starts after the code point.
-/

namespace DiagLayout.Text

/-- The code point `n` lies in one of the increasing ranges. -/
def inRanges : List (Nat × Nat) → Nat → Bool
  | [], _ => false
  | (lo, hi) :: rest, n => if n < lo then false else n ≤ hi || inRanges rest n

end DiagLayout.Text
