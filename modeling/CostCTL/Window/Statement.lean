import CostCTL.Cost
import CostCTL.Relation

/-!
# Statements

One relational bound on accumulated cost, such as `t <= 100ns`. Costs only grow along a path, so
a statement that does not hold may still come to hold at a larger cost, or be lost for good.
-/

namespace CostCTL

structure Statement where
  symbol : Symbol
  relation : Relation
  bound : Quantity
  deriving DecidableEq, Repr

/-- How a statement, or a window of them, stands at a cost. -/
inductive Verdict where
  | satisfied
  /-- not satisfied, but a larger cost may satisfy it -/
  | notYet (s : Statement)
  /-- no larger cost satisfies it -/
  | violated (s : Statement)
  deriving DecidableEq, Repr

/-- A bound given in a unit of the other symbol. -/
structure UnitMismatch where
  symbol : Symbol
  unit : Measure
  deriving DecidableEq, Repr

def UnitMismatch.message (e : UnitMismatch) : String :=
  "unit " ++ e.unit.suffix ++ " does not measure symbol " ++ e.symbol.text

namespace Statement

def text (s : Statement) : String :=
  s.symbol.text ++ " " ++ s.relation.text ++ " " ++ s.bound.text

def validate (s : Statement) : Except UnitMismatch Unit :=
  if s.bound.symbol = s.symbol then .ok () else .error ⟨s.symbol, s.bound.unit⟩

def verdict (s : Statement) (c : Cost) : Verdict :=
  let order := compare (c.get s.symbol) s.bound.base
  if s.relation.holds order then .satisfied
  else match s.relation with
    | .lt | .le => .violated s
    | .eq => if order = .gt then .violated s else .notYet s
    | .ne | .gt | .ge => .notYet s

/-- Statements are ordered by symbol, then relation, then bound. -/
def key (s : Statement) : List Nat := s.symbol.rank :: s.relation.rank :: s.bound.key

theorem key_injective (a b : Statement) (h : a.key = b.key) : a = b := by
  obtain ⟨s, r, q⟩ := a
  obtain ⟨t, u, p⟩ := b
  simp only [key, List.cons.injEq] at h
  obtain ⟨hs, hr, hq⟩ := h
  rw [Symbol.rank_injective _ _ hs, Relation.rank_injective _ _ hr, Quantity.key_injective _ _ hq]

instance : Ord Statement := ⟨compareOn key⟩

instance : Std.TransOrd Statement := transCmp_compareOn key

instance : Std.LawfulEqOrd Statement := lawfulEqCmp_compareOn key key_injective

end Statement

end CostCTL
