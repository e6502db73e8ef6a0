import CostCTL.Sorted.Key

/-!
# Identifiers

Nodes are numbered from zero; jobs, revisits and sessions are numbered from one. An identifier
fits in 32 bits.
-/

namespace CostCTL

/-- One more than the largest index of an identifier. -/
def Id.limit : Nat := UInt32.size

structure NodeId where
  index : Nat
  deriving DecidableEq, Repr

structure JobId where
  index : Nat
  deriving DecidableEq, Repr

structure RevisitId where
  index : Nat
  deriving DecidableEq, Repr

structure SessionId where
  index : Nat
  deriving DecidableEq, Repr

def NodeId.ofIndex? (n : Nat) : Option NodeId := if n < Id.limit then some ⟨n⟩ else none

def JobId.ofIndex? (n : Nat) : Option JobId :=
  if 0 < n ∧ n < Id.limit then some ⟨n⟩ else none

def RevisitId.ofIndex? (n : Nat) : Option RevisitId :=
  if 0 < n ∧ n < Id.limit then some ⟨n⟩ else none

def SessionId.ofIndex? (n : Nat) : Option SessionId :=
  if 0 < n ∧ n < Id.limit then some ⟨n⟩ else none

def NodeId.text (i : NodeId) : String := "n" ++ toString i.index
def JobId.text (i : JobId) : String := "j" ++ toString i.index
def RevisitId.text (i : RevisitId) : String := "r" ++ toString i.index
def SessionId.text (i : SessionId) : String := "s" ++ toString i.index

namespace NodeId

instance : Ord NodeId := ⟨compareOn index⟩

instance : Std.TransOrd NodeId := transCmp_compareOn index

instance : Std.LawfulEqOrd NodeId :=
  lawfulEqCmp_compareOn index fun a b h => by cases a; cases b; cases h; rfl

end NodeId

end CostCTL
