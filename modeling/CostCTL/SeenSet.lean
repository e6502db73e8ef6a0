import CostCTL.Table

/-!
# Sets of keys already seen

A set that is asked and extended in one operation, and that counts how often the answer was yes
(`hits`) and how often it was no (`misses`).
-/

namespace CostCTL

structure SeenSet (α : Type) [DecidableEq α] [Hashable α] where
  members : Table α
  hits : Nat
  misses : Nat

namespace SeenSet

variable {α : Type} [DecidableEq α] [Hashable α]

def withBits (bits : Nat) : SeenSet α := ⟨.withBits bits, 0, 0⟩

def ofBits? (bits : Nat) : Option (SeenSet α) :=
  if bits ≤ Table.maxBits then some (withBits bits) else none

def size (s : SeenSet α) : Nat := s.members.size

def clear (s : SeenSet α) : SeenSet α := ⟨s.members.clear, 0, 0⟩

def contains (s : SeenSet α) (k : α) : Bool := s.members.contains k

/-- Whether `k` was visited before; it is from now on. -/
def visit (s : SeenSet α) (k : α) : Bool × SeenSet α :=
  match s with
  | ⟨members, hits, misses⟩ =>
    match members.put k with
    | ((_, true), members) => (false, ⟨members, hits, misses + 1⟩)
    | ((_, false), members) => (true, ⟨members, hits + 1, misses⟩)

theorem visit_fst_eq_not (s : SeenSet α) (k : α) : (s.visit k).1 = !(s.members.put k).1.2 := by
  obtain ⟨members, hits, misses⟩ := s
  rw [visit]
  split <;> simp_all

theorem visit_fst (s : SeenSet α) (k : α) : (s.visit k).1 = decide (k ∈ s.members.toList) := by
  rw [visit_fst_eq_not, Bool.eq_iff_iff, Bool.not_eq_true', ← Bool.not_eq_true, Table.put_new_iff]
  simp

theorem members_visit (s : SeenSet α) (k : α) : (s.visit k).2.members = (s.members.put k).2 := by
  obtain ⟨members, hits, misses⟩ := s
  rw [visit]
  split <;> simp_all

end SeenSet

end CostCTL
