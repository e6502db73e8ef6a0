import CostCTL.Digest.Basic
import CostCTL.Job

/-!
# Digests of jobs and their keys

Jobs may differ in a name in the formula, in the step in which costs grow, or in the history alone,
where costs have reached the top.
-/

namespace CostCTL

namespace Digest

def ofIndex : Option Nat → UInt64
  | none => 0
  | some n => ofNat n

def ofCost (c : Cost) : UInt64 := mix c.time c.energy

def ofTrail (l : List NodeId) : UInt64 := l.foldl (fun d i => mix d (ofNat i.index)) 1

def ofHistory (h : History) : UInt64 :=
  h.entries.foldl (fun d (i, c) => mix (mix d (ofNat i.index)) (ofCost c)) 1

def ofMeasure (m : Measure) : UInt64 := mix (ofNat m.symbol.rank) (ofNat m.magnitude.rank)

def ofStatement (s : Statement) : UInt64 :=
  mix (mix (mix (ofNat s.symbol.rank) (ofNat s.relation.rank)) s.bound.value) (ofMeasure s.bound.unit)

def ofWindow (w : Window) : UInt64 := w.toList.foldl (fun d s => mix d (ofStatement s)) 1

def ofOperand : Operand → UInt64
  | .var name => mix 1 (ofText name)
  | .lit value => mix 2 (ofValue value)

def ofAtom : Atom → UInt64
  | .const b => ofBool b
  | .inState state => mix 3 (ofText state)
  | .compare c => mix (mix (ofOperand c.lhs) (ofNat c.relation.rank)) (ofOperand c.rhs)

def ofQuantifier : Quantifier → UInt64
  | .all => 1
  | .some => 2

def ofFormula : Formula → UInt64
  | .atom a => mix 1 (ofAtom a)
  | .not f => mix 2 (ofFormula f)
  | .and l r => mix (mix 3 (ofFormula l)) (ofFormula r)
  | .or l r => mix (mix 4 (ofFormula l)) (ofFormula r)
  | .implies l r => mix (mix 5 (ofFormula l)) (ofFormula r)
  | .always q f => mix (mix 6 (ofQuantifier q)) (ofFormula f)
  | .eventually q f => mix (mix 7 (ofQuantifier q)) (ofFormula f)
  | .next q f => mix (mix 8 (ofQuantifier q)) (ofFormula f)
  | .strongUntil q l r => mix (mix (mix 9 (ofQuantifier q)) (ofFormula l)) (ofFormula r)
  | .weakUntil q l r => mix (mix (mix 10 (ofQuantifier q)) (ofFormula l)) (ofFormula r)
  | .within f w => mix (mix 11 (ofWindow w)) (ofFormula f)

end Digest

open Digest

instance : Hashable SessionKey where
  hash k := mix (mix (mix (ofNat k.node.index) (ofFormula k.formula)) (ofCost k.cost))
    (ofWindow k.window)

instance : Hashable VisitKey where
  hash k := mix (mix (mix (hash (⟨k.node, k.formula, k.window, k.cost⟩ : SessionKey))
    (ofBool k.inCycle)) (ofIndex (k.link.map (·.index)))) (ofIndex (k.session.map (·.index)))

instance : Hashable Job where
  hash j := mix (hash j.visitKey) (mix (mix (ofTrail j.trail) (ofHistory j.history)) (ofCost j.cost))

end CostCTL
