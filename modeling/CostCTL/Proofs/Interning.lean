import CostCTL.Table
import Mathlib.Data.List.Nodup
import Mathlib.Logic.Function.Iterate

/-!
# Tables as ordered sets

A table is put to, asked and cleared, in any order. It then holds the values put since it was last
cleared, each once, in the order of their first arrival (`Table.toList_after`), and the number of a
value is its place among them. The hash function decides only which chain a value stands in, and the
number of chains only how long they are; neither is told by any answer. Every walk along a chain
comes to its end, however many values share it.
-/

namespace CostCTL

namespace Links

variable {next : Array Nat} {n : Nat} {l : List Nat}

/-- The number beside an entry, where a walk goes on. -/
def after (next : Array Nat) : Nat → Nat
  | 0 => 0
  | i + 1 => next.getD i 0

theorem Follows.iterate_after (h : Follows next n l) : (after next)^[l.length] n = 0 := by
  induction h with
  | nil => rfl
  | cons rest ih =>
    rw [List.length_cons, Function.iterate_succ_apply]
    exact ih

end Links

namespace Table

variable {α : Type} [DecidableEq α] [Hashable α] {t : Table α} {v : α} {n : Nat} {l : List α}

/-! ### Operations in a row -/

inductive Op (α : Type) where
  | put (v : α)
  | get (v : α)
  | clear

/-- The values put since the table was last cleared, with one more operation. -/
def Op.arrive (l : List α) : Op α → List α
  | .put v => l ++ [v]
  | .get _ => l
  | .clear => []

/-- The values put since the table was last cleared, as they came. -/
def Op.arrivals (ops : List (Op α)) : List α := ops.foldl Op.arrive []

def apply (t : Table α) : Op α → Table α
  | .put v => (t.put v).2
  | .get _ => t
  | .clear => t.clear

def after (t : Table α) (ops : List (Op α)) : Table α := ops.foldl apply t

theorem toList_apply (h : t.toList = l.eraseDups) (op : Op α) :
    (t.apply op).toList = (op.arrive l).eraseDups := by
  cases op with
  | put v => exact toList_put_eq_eraseDups h v
  | get v => exact h
  | clear => rfl

theorem toList_foldl_apply (h : t.toList = l.eraseDups) (ops : List (Op α)) :
    (ops.foldl apply t).toList = (ops.foldl Op.arrive l).eraseDups := by
  induction ops generalizing t l with
  | nil => exact h
  | cons op ops ih => exact ih (toList_apply h op)

/-- The table holds what was put since it was last cleared, each value once. -/
theorem toList_after (h : t.toList = []) (ops : List (Op α)) :
    (t.after ops).toList = (Op.arrivals ops).eraseDups :=
  toList_foldl_apply h ops

/-- A number keeps its value until the table is cleared. -/
theorem get?_after (h : t.get? n = some v) {ops : List (Op α)} (hc : .clear ∉ ops) :
    (t.after ops).get? n = some v := by
  induction ops generalizing t with
  | nil => exact h
  | cons op ops ih =>
    refine ih ?_ fun hm => hc (List.mem_cons_of_mem _ hm)
    cases op with
    | put w => exact get?_put_of_eq_some h
    | get w => exact h
    | clear => exact absurd List.mem_cons_self hc

/-! ### What a table answers -/

/-- The table is the set of these values, ordered by their first arrival. -/
structure Interns (t : Table α) (arrivals : List α) : Prop where
  size : t.size = arrivals.eraseDups.length
  put_again : ∀ v ∈ arrivals, (t.put v).1 = (arrivals.eraseDups.idxOf v + 1, false)
  put_new : ∀ v ∉ arrivals, (t.put v).1 = (t.size + 1, true)
  find : ∀ v ∈ arrivals, t.find? v = some (arrivals.eraseDups.idxOf v + 1)
  find_new : ∀ v ∉ arrivals, t.find? v = none
  value : ∀ i, t.get? (i + 1) = arrivals.eraseDups[i]?

theorem interns_of_toList (h : t.toList = l.eraseDups) : t.Interns l := by
  have hget (v : α) (hv : v ∈ l) : t.get? (l.eraseDups.idxOf v + 1) = some v := by
    rw [get?_succ, h]
    exact List.getElem?_idxOf (List.mem_eraseDups.mpr hv)
  have hmem (v : α) (hv : v ∉ l) : v ∉ t.toList := by rwa [h, List.mem_eraseDups]
  exact {
    size := congrArg List.length h
    put_again := fun v hv => (put_of_get? (hget v hv)).1
    put_new := fun v hv => put_of_not_mem (hmem v hv)
    find := fun v hv => find?_eq_some_iff.mpr (hget v hv)
    find_new := fun v hv => find?_eq_none_iff.mpr (hmem v hv)
    value := fun i => by rw [get?_succ, h] }

/-- From the head of every chain the links lead to its end, past at most as many values as the table
has. So a walk that may take so many steps never runs out of them. -/
structure WalksEnd (t : Table α) : Prop where
  ends : ∀ k, ∃ n ≤ t.size, (Links.after t.next)^[n] (Links.head t.chains k) = 0
  arrives : ∀ v, t.seek (key v) v ≠ .astray

theorem walksEnd (t : Table α) : t.WalksEnd where
  ends k := by
    obtain ⟨l, hf, -, hlen, -⟩ := t.linked.exists_follows t.chains_pos k
    have hsize : t.keys.toList.length = t.size := by simp [t.keyed, size]
    exact ⟨l.length, hsize ▸ hlen, hf.iterate_after⟩
  arrives := t.seek_ne_astray

/-- A table is an ordered set of what was put since it was last cleared. Walks end where it is
asked, and also where it is put to, with room made before; and a number once given stays. The
table may start with any number of chains. -/
theorem interns_after (start : Table α) (hs : start.toList = []) (ops : List (Op α)) :
    let t := start.after ops
    t.Interns (Op.arrivals ops) ∧ t.WalksEnd ∧ t.roomy.WalksEnd ∧
      ∀ v n, t.find? v = some n → ∀ more, .clear ∉ more →
        (t.after more).find? v = some n ∧ ((t.after more).put v).1 = (n, false) := by
  intro t
  refine ⟨interns_of_toList (toList_after hs ops), t.walksEnd, t.roomy.walksEnd,
    fun v n hn more hc => ?_⟩
  have hget := get?_after (find?_eq_some_iff.mp hn) hc
  exact ⟨find?_eq_some_iff.mpr hget, (put_of_get? hget).1⟩

/-- Values that cannot be told apart by their hashes. -/
structure Lookalike where
  n : Nat
  deriving DecidableEq

instance : Hashable Lookalike := ⟨fun _ => 6⟩

/-- In one chain, which is laid anew twice. -/
theorem interns_after_lookalikes :
    let start : Table Lookalike := withBits 0
    let ops : List (Op Lookalike) :=
      [.put ⟨7⟩, .clear, .put ⟨5⟩, .put ⟨3⟩, .put ⟨5⟩, .get ⟨7⟩, .put ⟨8⟩, .put ⟨9⟩, .put ⟨1⟩]
    let t := start.after ops
    start.toList = [] ∧ t.chains.size = 4 ∧ t.find? ⟨8⟩ = some 3 ∧ t.find? ⟨7⟩ = none ∧
      (t.put ⟨7⟩).1 = (6, true) ∧ ((t.after [.put ⟨7⟩]).put ⟨8⟩).1 = (3, false) := by
  intro start ops t
  have h := interns_after start rfl ops
  have h8 : t.find? ⟨8⟩ = some 3 := (h.1.find ⟨8⟩ (by decide)).trans (by decide)
  exact ⟨rfl, by decide +kernel, h8, h.1.find_new ⟨7⟩ (by decide),
    (h.1.put_new ⟨7⟩ (by decide)).trans (by decide +kernel),
    (h.2.2.2 ⟨8⟩ 3 h8 [.put ⟨7⟩] (by simp)).2⟩

end Table

end CostCTL
