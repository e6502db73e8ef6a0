import CostCTL.Text.Quoted

/-!
# Values of variables

Variables range over truth values, integers and strings. Values of different domains are never
equal, and only integers have an order that formulas may use.
-/

namespace CostCTL

inductive Value where
  | bool (b : Bool)
  | int (n : Int)
  | str (s : String)
  deriving DecidableEq, Repr

namespace Value

def isNumeric : Value → Bool
  | int _ => true
  | _ => false

/-- The name of the domain that the value belongs to. -/
def domain : Value → String
  | bool _ => "bool"
  | int _ => "int"
  | str _ => "string"

def text : Value → String
  | bool b => toString b
  | int n => toString n
  | str s => Text.quoted s

def rank : Value → Nat
  | bool _ => 0
  | int _ => 1
  | str _ => 2

/-- Truth values stand before integers, integers before strings, and each domain is in its own
order. -/
def order : Value → Value → Ordering
  | bool a, bool b => compare a b
  | int m, int n => compare m n
  | str s, str t => compare s t
  | v, w => compare v.rank w.rank

instance : Ord Value := ⟨order⟩

end Value

end CostCTL
