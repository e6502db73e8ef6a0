import CostCTL.Atom
import CostCTL.Window.Basic

/-!
# Formulas

Branching-time formulas: atoms, boolean connectives, path operators under a quantifier over the
paths from a node, and a window on the cost at which a path formula is decided.
-/

namespace CostCTL

inductive Quantifier where
  /-- on every path -/
  | all
  /-- on some path -/
  | some
  deriving DecidableEq, Repr

def Quantifier.text : Quantifier → String
  | all => "A"
  | some => "E"

inductive Formula where
  | atom (a : Atom)
  | not (f : Formula)
  | and (l r : Formula)
  | or (l r : Formula)
  | implies (l r : Formula)
  | always (q : Quantifier) (f : Formula)
  | eventually (q : Quantifier) (f : Formula)
  | next (q : Quantifier) (f : Formula)
  /-- `r` comes, and `l` holds until then -/
  | strongUntil (q : Quantifier) (l r : Formula)
  /-- `l` holds until `r` comes, or for ever -/
  | weakUntil (q : Quantifier) (l r : Formula)
  | within (f : Formula) (w : Window)
  deriving DecidableEq

namespace Formula

instance : Inhabited Formula := ⟨.atom (.const true)⟩

def falsum : Formula := .atom (.const false)

def text : Formula → String
  | atom a => a.text
  | not f => "¬" ++ f.text
  | and l r => "(" ++ l.text ++ " ∧ " ++ r.text ++ ")"
  | or l r => "(" ++ l.text ++ " ∨ " ++ r.text ++ ")"
  | implies l r => "(" ++ l.text ++ " → " ++ r.text ++ ")"
  | always q f => q.text ++ "G " ++ f.text
  | eventually q f => q.text ++ "F " ++ f.text
  | next q f => q.text ++ "X " ++ f.text
  | strongUntil q l r => q.text ++ "[" ++ l.text ++ " U " ++ r.text ++ "]"
  | weakUntil q l r => q.text ++ "[" ++ l.text ++ " W " ++ r.text ++ "]"
  | within f w => "\x7b" ++ f.text ++ "\x7d_\x7b" ++ w.text ++ "\x7d"

/-- Number of connectives and atoms. -/
def size : Formula → Nat
  | atom _ => 1
  | not f | always _ f | eventually _ f | next _ f | within f _ => 1 + f.size
  | and l r | or l r | implies l r | strongUntil _ l r | weakUntil _ l r => 1 + l.size + r.size

/-- Length of the longest chain of nested subformulas. -/
def height : Formula → Nat
  | atom _ => 1
  | not f | always _ f | eventually _ f | next _ f | within f _ => 1 + f.height
  | and l r | or l r | implies l r | strongUntil _ l r | weakUntil _ l r =>
    1 + max l.height r.height

/-- A state formula has no path operator and no window: one node decides it. -/
def isState : Formula → Bool
  | atom _ => true
  | not f => f.isState
  | and l r | or l r | implies l r => l.isState && r.isState
  | _ => false

/-- A path operator stands at the top. -/
def isPath : Formula → Bool
  | always .. | eventually .. | next .. | strongUntil .. | weakUntil .. => true
  | _ => false

end Formula

end CostCTL
