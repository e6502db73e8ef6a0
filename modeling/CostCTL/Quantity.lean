import CostCTL.Sorted.Key

/-!
# Quantities

Physical amounts are 64-bit naturals counted in a base unit: picoseconds of time, picojoules of
energy. Arithmetic on them never wraps, it stops at the largest amount.
-/

namespace CostCTL

abbrev Amount := UInt64

namespace Amount

/-- The largest amount. -/
def top : Amount := 0xFFFFFFFFFFFFFFFF

/-- The amount nearest to `n`. -/
def saturate (n : Nat) : Amount := if n < UInt64.size then UInt64.ofNat n else top

def plus (a b : Amount) : Amount := saturate (a.toNat + b.toNat)

def times (a b : Amount) : Amount := saturate (a.toNat * b.toNat)

@[simp] theorem toNat_top : top.toNat = UInt64.size - 1 := rfl

theorem toNat_saturate (n : Nat) : (saturate n).toNat = min n (UInt64.size - 1) := by
  unfold saturate
  split
  · rw [UInt64.toNat_ofNat_of_lt' ‹n < UInt64.size›]; omega
  · rw [toNat_top]; omega

end Amount

/-- The two physical quantities that a step may cost. -/
inductive Symbol where
  | time | energy
  deriving DecidableEq, Repr

namespace Symbol

def text : Symbol → String
  | time => "t"
  | energy => "e"

def ofText? : String → Option Symbol
  | "t" => some time
  | "e" => some energy
  | _ => none

/-- The letter of the unit that the symbol is measured in. -/
def letter : Symbol → String
  | time => "s"
  | energy => "J"

def all : List Symbol := [time, energy]

def rank : Symbol → Nat
  | time => 0
  | energy => 1

theorem rank_injective (a b : Symbol) (h : a.rank = b.rank) : a = b := by
  cases a <;> cases b <;> simp_all [rank]

end Symbol

/-- Powers of a thousand, counted from the base unit. -/
inductive Magnitude where
  | pico | nano | micro | milli | whole
  deriving DecidableEq, Repr

namespace Magnitude

def letter : Magnitude → String
  | pico => "p"
  | nano => "n"
  | micro => "u"
  | milli => "m"
  | whole => ""

def rank : Magnitude → Nat
  | pico => 0
  | nano => 1
  | micro => 2
  | milli => 3
  | whole => 4

def all : List Magnitude := [pico, nano, micro, milli, whole]

/-- How many base units make one unit of this magnitude. -/
def scale : Magnitude → Amount
  | pico => 1
  | nano => 1000
  | micro => 1000000
  | milli => 1000000000
  | whole => 1000000000000

theorem rank_injective (a b : Magnitude) (h : a.rank = b.rank) : a = b := by
  cases a <;> cases b <;> simp_all [rank]

end Magnitude

/-- A unit such as `ns` or `mJ`. -/
structure Measure where
  symbol : Symbol
  magnitude : Magnitude
  deriving DecidableEq, Repr

namespace Measure

def suffix (u : Measure) : String := u.magnitude.letter ++ u.symbol.letter

def scale (u : Measure) : Amount := u.magnitude.scale

def all : List Measure := Symbol.all.flatMap fun s => Magnitude.all.map fun m => ⟨s, m⟩

def ofSuffix? (s : String) : Option Measure := all.find? (·.suffix == s)

end Measure

/-- An amount as it is written, before conversion to base units. -/
structure Quantity where
  value : Amount
  unit : Measure
  deriving DecidableEq, Repr

namespace Quantity

def symbol (q : Quantity) : Symbol := q.unit.symbol

/-- The quantity in base units. -/
def base (q : Quantity) : Amount := Amount.times q.value q.unit.scale

def text (q : Quantity) : String := toString q.value ++ q.unit.suffix

/-- Quantities are ordered as written: by the number, then by the unit. -/
def key (q : Quantity) : List Nat :=
  [q.value.toNat, q.unit.symbol.rank, q.unit.magnitude.rank]

theorem key_injective (a b : Quantity) (h : a.key = b.key) : a = b := by
  obtain ⟨v, s, m⟩ := a
  obtain ⟨w, t, n⟩ := b
  simp only [key, List.cons.injEq, and_true] at h
  obtain ⟨hv, hs, hm⟩ := h
  rw [UInt64.toNat_inj.mp hv, Symbol.rank_injective _ _ hs, Magnitude.rank_injective _ _ hm]

instance : Ord Quantity := ⟨compareOn key⟩

end Quantity

end CostCTL
