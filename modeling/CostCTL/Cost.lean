import CostCTL.Quantity

/-!
# Costs

What a step, or a path of steps, takes in time and in energy, each in base units.
-/

namespace CostCTL

structure Cost where
  time : Amount
  energy : Amount
  deriving DecidableEq, Repr

namespace Cost

def zero : Cost := ⟨0, 0⟩

instance : Inhabited Cost := ⟨zero⟩

/-- The cost of these two quantities, if the first is a time and the second an energy. -/
def ofQuantities? (time energy : Quantity) : Option Cost :=
  if time.symbol = .time ∧ energy.symbol = .energy then some ⟨time.base, energy.base⟩ else none

def ofTime? (time : Quantity) : Option Cost := ofQuantities? time ⟨0, ⟨.energy, .pico⟩⟩

def get (c : Cost) : Symbol → Amount
  | .time => c.time
  | .energy => c.energy

def isZero (c : Cost) : Bool := c == zero

def add (a b : Cost) : Cost := ⟨Amount.plus a.time b.time, Amount.plus a.energy b.energy⟩

instance : Add Cost := ⟨add⟩

theorem get_add (a b : Cost) (s : Symbol) : (a + b).get s = Amount.plus (a.get s) (b.get s) := by
  cases s <;> rfl

def text (c : Cost) : String :=
  "\x7bt = " ++ toString c.time ++ "ps, e = " ++ toString c.energy ++ "pJ\x7d"

instance : Ord Cost := ⟨compareOn fun c => [c.time.toNat, c.energy.toNat]⟩

end Cost

end CostCTL
