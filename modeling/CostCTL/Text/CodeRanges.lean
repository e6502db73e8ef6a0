/-!
# Classes of characters

A class of characters is given by ranges of code points, both ends included, in three lists so
that a look-up scans one of them only.
-/

namespace CostCTL.Text

structure CodeRanges where
  /-- below U+1000 -/
  low : List (Nat × Nat)
  /-- from U+1000 to the end of the basic plane -/
  basic : List (Nat × Nat)
  supplementary : List (Nat × Nat)

def CodeRanges.contains (r : CodeRanges) (c : Char) : Bool :=
  let n := c.toNat
  let ranges := if n < 0x1000 then r.low else if n < 0x10000 then r.basic else r.supplementary
  ranges.any fun (first, last) => first ≤ n && n ≤ last

end CostCTL.Text
