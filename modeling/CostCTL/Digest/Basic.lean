import CostCTL.Id
import CostCTL.Node

/-!
# Digests

Values are chained in tables by a 64-bit digest. They may differ in any one part, so a digest reads
every field, and `scramble` carries every bit to the low bits, which choose the chain.
-/

namespace CostCTL

namespace Digest

/-- The first shift brings high bits down to where the product spreads them, and the second brings
the product's high bits to the low end. The constant is the first factor, so that evaluation of the
digest of a value that is not known stops there. -/
def scramble (n : UInt64) : UInt64 :=
  let x := (0x9E3779B97F4A7C15 : UInt64) * (n ^^^ (n >>> 32))
  x ^^^ (x >>> 29)

/-- The digest of a pair. The second number is scrambled by itself first, so that equal numbers do
not cancel. -/
def mix (a b : UInt64) : UInt64 := scramble (a ^^^ scramble (0xD1B54A32D192ED03 + b))

def ofNat (n : Nat) : UInt64 := UInt64.ofNat n

def ofBool (b : Bool) : UInt64 := if b then 1 else 2

def ofId (i : NodeId) : UInt64 := scramble (ofNat i.index)

def ofText (s : String) : UInt64 := s.toByteArray.foldl (fun d b => mix d b.toUInt64) 1

def ofValue : Value → UInt64
  | .bool b => ofBool b
  | .int n => mix (ofBool (n < 0)) (ofNat n.natAbs)
  | .str s => ofText s

def ofNode (n : Node) : UInt64 :=
  let vars := n.vars.entries.foldl (fun d (name, value) => mix (mix d (ofText name)) (ofValue value)) 1
  mix (mix (mix (mix vars (ofBool n.entry)) (ofText n.current)) (ofText n.target))
    (ofNat n.kind.rank)

end Digest

instance : Hashable NodeId := ⟨Digest.ofId⟩

instance : Hashable Value := ⟨Digest.ofValue⟩

instance : Hashable Node := ⟨Digest.ofNode⟩

end CostCTL
