import CostCTL.Formula.Basic

/-!
# Well-formed formulas

What is checked of a formula before any node is looked at: the shape of its atoms, that a window
stands directly on a path formula, that bounds are given in fitting units, and that the windows
around each subformula leave some cost.
-/

namespace CostCTL

/-- A fault in the text of a formula, or in what an atom finds at a node. -/
inductive Malformed where
  | atom (e : AtomError)
  | unquantifiedWindow (f : Formula)
  | unitMismatch (e : UnitMismatch)
  deriving DecidableEq

def Malformed.message : Malformed → String
  | atom e => e.message
  | unquantifiedWindow f =>
    "constrained formula `" ++ f.text ++ "` must wrap a quantified path formula"
  | unitMismatch e => e.message

inductive FormulaError where
  | malformed (e : Malformed)
  | conflict (e : Conflict)
  deriving DecidableEq

namespace Formula

/-- Check a formula that stands inside the window `outer`. -/
def validateUnder (outer : Window) : Formula → Except FormulaError Unit
  | atom a => a.validate.mapError fun e => .malformed (.atom e)
  | not f | always _ f | eventually _ f | next _ f => f.validateUnder outer
  | and l r | or l r | implies l r | strongUntil _ l r | weakUntil _ l r => do
    l.validateUnder outer
    r.validateUnder outer
  | within f w => do
    if !f.isPath then .error (.malformed (.unquantifiedWindow (.within f w)))
    w.validate.mapError fun e => .malformed (.unitMismatch e)
    let inner ← (outer.merge w).mapError .conflict
    f.validateUnder inner

def validate (f : Formula) : Except FormulaError Unit := f.validateUnder ∅

end Formula

end CostCTL
