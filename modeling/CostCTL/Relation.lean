/-!
# Relations

The six ways to compare, shared by atoms and by the statements of a window.
-/

namespace CostCTL

inductive Relation where
  | lt | le | eq | ne | gt | ge
  deriving DecidableEq, Repr

namespace Relation

def text : Relation → String
  | lt => "<"
  | le => "<="
  | eq => "="
  | ne => "!="
  | gt => ">"
  | ge => ">="

def all : List Relation := [lt, le, eq, ne, gt, ge]

def ofText? (s : String) : Option Relation := all.find? (·.text == s)

/-- Whether the relation needs an order, and not only equality. -/
def isOrdering : Relation → Bool
  | eq | ne => false
  | _ => true

/-- The relation with its two sides exchanged. -/
def flip : Relation → Relation
  | lt => gt
  | le => ge
  | eq => eq
  | ne => ne
  | gt => lt
  | ge => le

/-- Whether the relation holds between two things that compare so. -/
def holds : Relation → Ordering → Bool
  | lt, o => o == .lt
  | le, o => o != .gt
  | eq, o => o == .eq
  | ne, o => o != .eq
  | gt, o => o == .gt
  | ge, o => o != .lt

theorem holds_flip (r : Relation) (o : Ordering) : r.flip.holds o.swap = r.holds o := by
  cases r <;> cases o <;> rfl

def rank : Relation → Nat
  | lt => 0
  | le => 1
  | eq => 2
  | ne => 3
  | gt => 4
  | ge => 5

theorem rank_injective (a b : Relation) (h : a.rank = b.rank) : a = b := by
  cases a <;> cases b <;> simp_all [rank]

instance : Ord Relation := ⟨compareOn rank⟩

end Relation

end CostCTL
