import CostCTL.Formula.Basic

/-!
# Violations and counterexamples

Why a formula was found not to hold, and the branch on which it was found.
-/

namespace CostCTL

inductive Violation where
  /-- a state formula is false at a node -/
  | unsatisfied (f : Formula) (node : NodeId)
  /-- a negated formula holds -/
  | holds (f : Formula) (node : NodeId)
  /-- an eventuality goes round a cycle without its goal -/
  | noWitness (f : Formula) (node : NodeId)
  /-- the cost has passed a statement -/
  | constraint (s : Statement) (cost : Cost) (node : NodeId)
  /-- the cost has not reached a statement -/
  | unreached (s : Statement) (cost : Cost) (node : NodeId)
  deriving DecidableEq

namespace Violation

def node : Violation → NodeId
  | unsatisfied _ node | holds _ node | noWitness _ node => node
  | constraint _ _ node | unreached _ _ node => node

/-- The cost is to blame, and not the truth of a formula. -/
def isBudget : Violation → Bool
  | constraint .. | unreached .. => true
  | _ => false

def text : Violation → String
  | unsatisfied f node => "`" ++ f.text ++ "` does not hold at " ++ node.text
  | holds f node => "`" ++ f.text ++ "` holds at " ++ node.text ++ " but is negated"
  | noWitness f node => "`" ++ f.text ++ "` found no witness before revisiting " ++ node.text
  | constraint s cost node =>
    "constraint `" ++ s.text ++ "` violated at " ++ node.text ++ " with accumulated cost "
      ++ cost.text
  | unreached s cost node =>
    "constraint `" ++ s.text ++ "` not reached at " ++ node.text ++ " with accumulated cost "
      ++ cost.text

end Violation

structure Counterexample where
  violation : Violation
  /-- the nodes from an initial node on -/
  branch : List NodeId
  deriving DecidableEq

def Counterexample.text (c : Counterexample) : String :=
  c.violation.text ++ " along [" ++ " -> ".intercalate (c.branch.map NodeId.text) ++ "]"

end CostCTL
