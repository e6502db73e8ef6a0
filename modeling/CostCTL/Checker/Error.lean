import CostCTL.Formula.WellFormed
import CostCTL.Kripke.Basic
import CostCTL.Violation

/-!
# Results of a check

Why a specification is not accepted: a requirement is violated, a formula or the graph is wrong,
or the search ended with sessions left open.
-/

namespace CostCTL

inductive CheckError where
  /-- the requirement of this index is violated -/
  | unsatisfied (index : Nat) (requirement : Formula) (c : Counterexample)
  | malformed (e : Malformed)
  | conflict (e : Conflict)
  | graph (e : GraphError)
  | stalled (pending : Nat)
  deriving DecidableEq

namespace CheckError

def ofFormulaError : FormulaError → CheckError
  | .malformed e => .malformed e
  | .conflict e => .conflict e

def message : CheckError → String
  | unsatisfied index requirement c =>
    "requirement #" ++ toString index ++ " `" ++ requirement.text ++ "` is violated: " ++ c.text
  | malformed e => "malformed input: " ++ e.message
  | conflict e => "conflicting window: " ++ e.message
  | graph e => "invalid graph: " ++ e.message
  | stalled pending =>
    "worklist drained with " ++ toString pending ++ " session(s) still pending"

def counterexample? : CheckError → Option Counterexample
  | unsatisfied _ _ c => some c
  | _ => none

end CheckError

end CostCTL
