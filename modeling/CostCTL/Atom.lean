import CostCTL.Id
import CostCTL.Node
import CostCTL.Relation

/-!
# Atoms

Propositions about a single node: a constant, the control state it rests in, or a comparison of
a variable with a literal. A comparison is well formed if exactly one side is a variable, and if
it asks for an order only of an integer literal; what it finds at a node is known only there.
-/

namespace CostCTL

inductive Operand where
  | var (name : String)
  | lit (value : Value)
  deriving DecidableEq, Repr

def Operand.text : Operand → String
  | var name => name
  | lit value => value.text

structure Comparison where
  lhs : Operand
  relation : Relation
  rhs : Operand
  deriving DecidableEq, Repr

def Comparison.text (c : Comparison) : String :=
  c.lhs.text ++ " " ++ c.relation.text ++ " " ++ c.rhs.text

/-- What can be wrong with a comparison. The first two faults are seen without a node. -/
inductive AtomError where
  | operandShape (c : Comparison)
  | nonNumericOrdering (c : Comparison)
  | unknownVariable (name : String) (node : NodeId)
  | domainMismatch (c : Comparison) (node : NodeId) (found : String)
  deriving DecidableEq, Repr

def AtomError.message : AtomError → String
  | operandShape c => "comparison `" ++ c.text ++ "` must relate a variable to a literal"
  | nonNumericOrdering c =>
    "ordering `" ++ c.text ++ "` is only defined between numeric values"
  | unknownVariable name node =>
    "variable '" ++ name ++ "' is not defined at node " ++ node.text
  | domainMismatch c node found =>
    "ordering `" ++ c.text ++ "` at node " ++ node.text ++ ": variable holds a " ++ found
      ++ " value"

namespace Comparison

/-- The comparison read from its variable: name, relation, literal. -/
def oriented (c : Comparison) : Except AtomError (String × Relation × Value) :=
  match c.lhs, c.rhs with
  | .var name, .lit value => .ok (name, c.relation, value)
  | .lit value, .var name => .ok (name, c.relation.flip, value)
  | _, _ => .error (.operandShape c)

def validate (c : Comparison) : Except AtomError Unit := do
  let (_, relation, value) ← c.oriented
  if relation.isOrdering && !value.isNumeric then .error (.nonNumericOrdering c) else .ok ()

/-- Two integers compare as numbers. Otherwise only equality is defined. -/
def compareValues (c : Comparison) (id : NodeId) (relation : Relation) :
    Value → Value → Except AtomError Bool
  | .int m, .int n => .ok (relation.holds (compare m n))
  | found, literal =>
    if relation.isOrdering then .error (.domainMismatch c id found.domain)
    else .ok (relation.holds (if found = literal then .eq else .lt))

def evaluate (c : Comparison) (node : Node) (id : NodeId) : Except AtomError Bool := do
  c.validate
  let (name, relation, literal) ← c.oriented
  match node.var? name with
  | none => .error (.unknownVariable name id)
  | some found => c.compareValues id relation found literal

end Comparison

inductive Atom where
  | const (b : Bool)
  | inState (state : String)
  | compare (c : Comparison)
  deriving DecidableEq, Repr

namespace Atom

def text : Atom → String
  | const b => toString b
  | inState state => "@" ++ state
  | compare c => c.text

/-- The variable is true. -/
def flag (name : String) : Atom := .compare ⟨.var name, .eq, .lit (.bool true)⟩

def validate : Atom → Except AtomError Unit
  | compare c => c.validate
  | _ => .ok ()

def evaluate (a : Atom) (node : Node) (id : NodeId) : Except AtomError Bool :=
  match a with
  | const b => .ok b
  | inState state => .ok (node.current == state)
  | compare c => c.evaluate node id

end Atom

end CostCTL
