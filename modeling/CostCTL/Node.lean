import CostCTL.Sorted.Map
import CostCTL.Value

/-!
# Nodes

A snapshot of a machine records its variables, the control state it rests in, the control state
it goes to next, and whether it has just entered. A node is a snapshot before (`read`) or after
(`write`) one execution of the control state's body.
-/

namespace CostCTL

structure Snapshot where
  vars : SortedMap String Value
  /-- the control state was just entered -/
  entry : Bool
  current : String
  target : String
  deriving DecidableEq

namespace Snapshot

def var? (s : Snapshot) (name : String) : Option Value := s.vars.get? name

/-- The variables in the order of their names, as `x=1, y=true`. -/
def varsText (s : Snapshot) : String :=
  ", ".intercalate (s.vars.entries.map fun (name, value) => name ++ "=" ++ value.text)

instance : Ord Snapshot :=
  ⟨compareLex (compareOn vars) <| compareLex (compareOn entry) <|
    compareLex (compareOn current) (compareOn target)⟩

end Snapshot

inductive NodeKind where
  | read | write
  deriving DecidableEq, Repr

namespace NodeKind

def text : NodeKind → String
  | read => "R"
  | write => "W"

def rank : NodeKind → Nat
  | read => 0
  | write => 1

end NodeKind

structure Node extends Snapshot where
  kind : NodeKind
  deriving DecidableEq

namespace Node

def text (n : Node) : String :=
  "[" ++ n.kind.text ++ " " ++ n.current ++ "->" ++ n.target ++ (if n.entry then " entry" else "")
    ++ "] \x7b" ++ n.varsText ++ "\x7d"

instance : Ord Node :=
  ⟨compareLex (compareOn toSnapshot) (compareOn fun n => n.kind.rank)⟩

end Node

end CostCTL
