import CostCTL.Sorted.Set
import CostCTL.Window.Statement

/-!
# Admissible intervals

The amounts that a statement admits: an interval, open to the right if nothing bounds it from
above, less finitely many excluded points.
-/

namespace CostCTL

structure Interval where
  lo : Amount
  /-- the last amount, if there is one -/
  hi : Option Amount
  excluded : SortedSet Amount
  deriving DecidableEq

namespace Interval

/-- Every amount. -/
def full : Interval := ⟨0, none, ∅⟩

/-- No amount. -/
def empty : Interval := ⟨1, some 0, ∅⟩

/-- The smaller of two upper ends. -/
def minHi : Option Amount → Option Amount → Option Amount
  | some a, some b => some (min a b)
  | some a, none => some a
  | none, b => b

def intersect (i j : Interval) : Interval :=
  ⟨max i.lo j.lo, minHi i.hi j.hi, i.excluded ∪ j.excluded⟩

/-- Whether the interval has an upper end and every point up to it is excluded. -/
def isEmpty (i : Interval) : Bool :=
  match i.hi with
  | none => false
  | some hi =>
    hi < i.lo ||
      i.excluded.toList.countP (fun x => i.lo ≤ x && x ≤ hi) == hi.toNat - i.lo.toNat + 1

def contains (i : Interval) (x : Amount) : Bool :=
  i.lo ≤ x && i.hi.all (x ≤ ·) && !decide (x ∈ i.excluded)

end Interval

/-- The amounts that satisfy the statement. -/
def Statement.interval (s : Statement) : Interval :=
  let bound := s.bound.base
  match s.relation with
  | .lt => if bound = 0 then .empty else ⟨0, some (bound - 1), ∅⟩
  | .le => ⟨0, some bound, ∅⟩
  | .eq => ⟨bound, some bound, ∅⟩
  | .ne => ⟨0, none, (∅ : SortedSet Amount).insert bound⟩
  | .gt => if bound = Amount.top then .empty else ⟨bound + 1, none, ∅⟩
  | .ge => ⟨bound, none, ∅⟩

end CostCTL
