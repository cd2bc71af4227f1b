/-!
# Character ranges

A character property as the sorted list of the code point ranges that have it. `CharRanges.contains`
looks a character up by halving the table.
-/

namespace Ckl.Text

/-- The code points with some property: inclusive ranges, ascending and disjoint. -/
abbrev CharRanges := Array (Nat × Nat)

namespace CharRanges

/-- Halving search for `n` among the ranges from index `lo` up to, not including, `hi`. -/
def containsBetween (ranges : CharRanges) (n lo hi : Nat) : Bool :=
  if lo < hi then
    let middle := (lo + hi) / 2
    match ranges[middle]? with
    | none => false
    | some (first, last) =>
      if n < first then ranges.containsBetween n lo middle
      else if last < n then ranges.containsBetween n (middle + 1) hi
      else true
  else false
termination_by hi - lo

/-- Whether some range holds the character. -/
def contains (ranges : CharRanges) (c : Char) : Bool :=
  ranges.containsBetween c.toNat 0 ranges.size

end CharRanges

end Ckl.Text
