/-!
# Orders by a key

A type is ordered through a key into an ordered type. The order is transitive, and if the key
determines the value it tells different values apart, which is what sorted sets and maps ask of
their members.
-/

namespace CostCTL

variable {α β : Type} [Ord β]

theorem transCmp_compareOn [Std.TransOrd β] (key : α → β) : Std.TransCmp (compareOn key) :=
  inferInstance

theorem lawfulEqCmp_compareOn [Std.LawfulEqOrd β] (key : α → β)
    (injective : ∀ a b, key a = key b → a = b) : Std.LawfulEqCmp (compareOn key) where
  compare_self {a} := by
    have self : compare (key a) (key a) = .eq := Std.ReflCmp.compare_self
    exact self
  eq_of_compare h := injective _ _ (Std.LawfulEqOrd.eq_of_compare h)

end CostCTL
