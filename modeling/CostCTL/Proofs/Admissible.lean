import CostCTL.Proofs.Phase
import Mathlib.Order.Interval.Finset.Nat

/-!
# What windows admit

A statement is read in two ways: the cost so far is compared with its bound, and its bound is made
an interval of amounts. Both say the same (`Statement.Admits`), and so do the verdict of a window
and the intersection of its intervals. An interval is found to be empty by counting its excluded
points, which decides whether it is, as long as it has an upper end. So a conflict is always real,
and what is missed is a symbol without upper bound that has every amount left to it excluded one by
one.
-/

namespace CostCTL

theorem Symbol.forall_iff {p : Symbol → Prop} : (∀ s, p s) ↔ p .time ∧ p .energy := by
  refine ⟨fun h => ⟨h .time, h .energy⟩, ?_⟩
  rintro ⟨ht, he⟩ (_ | _)
  exacts [ht, he]

/-! ### Statements -/

namespace Statement

variable {x : Statement} {a : Amount} {c : Cost}

/-- The amount is as the statement asks. -/
def Admits (x : Statement) (a : Amount) : Prop :=
  match x.relation with
  | .lt => a < x.bound.base
  | .le => a ≤ x.bound.base
  | .eq => a = x.bound.base
  | .ne => a ≠ x.bound.base
  | .gt => x.bound.base < a
  | .ge => x.bound.base ≤ a

theorem holds_compare_iff :
    x.relation.holds (compare a x.bound.base) = true ↔ x.Admits a := by
  unfold Admits
  cases x.relation <;> simp [Relation.holds, Std.compare_eq_lt, Std.compare_eq_gt, UInt64.not_lt]

theorem verdict_eq_satisfied_iff : x.verdict c = .satisfied ↔ x.Admits (c.get x.symbol) := by
  rw [← holds_compare_iff]
  simp only [verdict]
  constructor
  · intro h
    split at h
    · assumption
    · split at h <;> (try split at h) <;> cases h
  · exact fun h => if_pos h

/-- The statement bounds its symbol from above: it is an upper bound, or it asks for more than the
largest amount and so leaves nothing. -/
def IsCap (x : Statement) : Prop :=
  match x.relation with
  | .lt | .le | .eq => True
  | .gt => x.bound.base = Amount.top
  | .ne | .ge => False

/-- The least number that a lower bound leaves. -/
def floor (x : Statement) : Nat :=
  match x.relation with
  | .gt => x.bound.base.toNat + 1
  | .ge => x.bound.base.toNat
  | _ => 0

/-- The statement excludes this one amount. -/
def Excludes (x : Statement) (a : Amount) : Prop := x.relation = .ne ∧ x.bound.base = a

/-- Without upper bound, a statement leaves all that is not under it and not excluded. -/
theorem admits_iff_of_not_isCap (h : ¬ x.IsCap) :
    x.Admits a ↔ x.floor ≤ a.toNat ∧ ¬ x.Excludes a := by
  cases hr : x.relation with
  | lt | le | eq => simp [IsCap, hr] at h
  | ne => simp [Admits, floor, Excludes, hr, eq_comm]
  | gt =>
    simp only [Admits, floor, Excludes, hr, reduceCtorEq, false_and, not_false_eq_true, and_true]
    exact UInt64.lt_iff_toNat_lt
  | ge => simp [Admits, floor, Excludes, hr, UInt64.le_iff_toNat_le]

end Statement

/-! ### Intervals -/

namespace Amount

variable {a b c : Amount}

theorem max_le_iff : max a b ≤ c ↔ a ≤ c ∧ b ≤ c := by
  simp only [UInt64.max_def, UInt64.le_iff_toNat_le]
  split <;> omega

theorem le_top (a : Amount) : a ≤ top := by
  have := a.toNat_lt
  rw [UInt64.le_iff_toNat_le, toNat_top]
  simp only [UInt64.size]
  omega

theorem toNat_lt_top (h : a ≠ top) : a.toNat < top.toNat := by
  have hle := UInt64.le_iff_toNat_le.mp (le_top a)
  have hne := mt UInt64.toNat_inj.mp h
  omega

theorem toNat_add_one (h : a ≠ top) : (a + 1).toNat = a.toNat + 1 := by
  have := toNat_lt_top h
  simp only [toNat_top, UInt64.size] at this
  rw [UInt64.toNat_add, UInt64.toNat_one]
  omega

theorem lt_add_one (h : a ≠ top) : a < a + 1 := by
  rw [UInt64.lt_iff_toNat_lt, toNat_add_one h]
  exact Nat.lt_succ_self _

theorem add_one_le_iff (h : b ≠ top) : b + 1 ≤ a ↔ b < a := by
  rw [UInt64.le_iff_toNat_le, UInt64.lt_iff_toNat_lt, toNat_add_one h]
  exact Nat.succ_le_iff

theorem le_sub_one_iff (h : b ≠ 0) : a ≤ b - 1 ↔ a < b := by
  have hpos : b.toNat ≠ 0 := fun h' => h (UInt64.toNat_inj.mp h')
  have hle : 1 ≤ b := UInt64.le_iff_toNat_le.mpr (Nat.one_le_iff_ne_zero.mpr hpos)
  rw [UInt64.le_iff_toNat_le, UInt64.lt_iff_toNat_lt, UInt64.toNat_sub_of_le _ _ hle,
    UInt64.toNat_one]
  omega

end Amount

theorem SortedSet.nodup_toList {α : Type} [Ord α] [Std.ReflOrd α] (s : SortedSet α) :
    s.toList.Nodup := by
  refine s.ascending.imp fun {a b} hab heq => ?_
  rw [heq, Std.ReflOrd.compare_self] at hab
  cases hab

namespace Interval

variable {i j : Interval} {a hi : Amount}

theorem contains_iff :
    i.contains a = true ↔ i.lo ≤ a ∧ (∀ hi, i.hi = some hi → a ≤ hi) ∧ a ∉ i.excluded := by
  unfold contains
  cases i.hi <;> simp [and_assoc]

theorem contains_full : full.contains a = true := by
  simp [contains_iff, full]

theorem not_contains_empty : empty.contains a = false := by
  rw [Bool.eq_false_iff, ne_eq, contains_iff]
  rintro ⟨hlo, hhi, -⟩
  exact absurd (UInt64.le_trans hlo (hhi 0 rfl)) (by decide)

theorem le_minHi {h k : Option Amount} :
    (∀ b, minHi h k = some b → a ≤ b) ↔ (∀ b, h = some b → a ≤ b) ∧ ∀ b, k = some b → a ≤ b := by
  cases h <;> cases k <;> simp [minHi, Std.le_min_iff]

/-- An intersection contains what both intervals do. -/
theorem contains_intersect :
    (i.intersect j).contains a = true ↔ i.contains a = true ∧ j.contains a = true := by
  simp only [contains_iff, intersect, le_minHi, SortedSet.mem_union, Amount.max_le_iff, not_or]
  tauto

theorem hi_intersect : (i.intersect j).hi ≠ none ↔ i.hi ≠ none ∨ j.hi ≠ none := by
  unfold intersect
  cases i.hi <;> cases j.hi <;> simp [minHi]

/-- The excluded points from the lower end up to `hi`. -/
def holes (i : Interval) (hi : Amount) : Finset Nat :=
  ((i.excluded.toList.filter fun a => i.lo ≤ a && a ≤ hi).map UInt64.toNat).toFinset

theorem mem_holes {n : Nat} :
    n ∈ i.holes hi ↔ ∃ a ∈ i.excluded, (i.lo ≤ a ∧ a ≤ hi) ∧ a.toNat = n := by
  simp [holes, SortedSet.mem_iff, and_assoc]

theorem card_holes :
    (i.holes hi).card = i.excluded.toList.countP fun a => i.lo ≤ a && a ≤ hi := by
  have hnodup : ((i.excluded.toList.filter fun a => i.lo ≤ a && a ≤ hi).map UInt64.toNat).Nodup :=
    (i.excluded.nodup_toList.filter _).map fun _ _ => UInt64.toNat_inj.mp
  rw [holes, List.toFinset_card_of_nodup hnodup, List.length_map, List.countP_eq_length_filter]

theorem holes_subset : i.holes hi ⊆ Finset.Icc i.lo.toNat hi.toNat := by
  intro n hn
  obtain ⟨a, -, ⟨hlo, hhi⟩, rfl⟩ := mem_holes.mp hn
  exact Finset.mem_Icc.mpr ⟨UInt64.le_iff_toNat_le.mp hlo, UInt64.le_iff_toNat_le.mp hhi⟩

/-- As many points are excluded as there are exactly if all are. -/
theorem countP_eq_iff (h : i.lo ≤ hi) :
    (i.excluded.toList.countP fun a => i.lo ≤ a && a ≤ hi) = hi.toNat - i.lo.toNat + 1 ↔
      ∀ a, i.lo ≤ a → a ≤ hi → a ∈ i.excluded := by
  have hcard : (Finset.Icc i.lo.toNat hi.toNat).card = hi.toNat - i.lo.toNat + 1 := by
    have := UInt64.le_iff_toNat_le.mp h
    rw [Nat.card_Icc]
    omega
  -- excluded points are listed once, so counting them is counting a subset of the interval
  rw [← card_holes, ← hcard]
  constructor
  · intro hcount a hlo hhi
    have hall := Finset.eq_of_subset_of_card_le holes_subset hcount.ge
    have ha : a.toNat ∈ i.holes hi := by
      rw [hall]
      exact Finset.mem_Icc.mpr ⟨UInt64.le_iff_toNat_le.mp hlo, UInt64.le_iff_toNat_le.mp hhi⟩
    obtain ⟨b, hb, -, hba⟩ := mem_holes.mp ha
    exact UInt64.toNat_inj.mp hba ▸ hb
  · intro hall
    refine congrArg Finset.card (Finset.Subset.antisymm holes_subset fun n hn => ?_)
    obtain ⟨hlo, hhi⟩ := Finset.mem_Icc.mp hn
    have hn : (UInt64.ofNat n).toNat = n :=
      UInt64.toNat_ofNat_of_lt' (Nat.lt_of_le_of_lt hhi hi.toNat_lt)
    have hle : i.lo ≤ UInt64.ofNat n ∧ UInt64.ofNat n ≤ hi := by
      rw [UInt64.le_iff_toNat_le, UInt64.le_iff_toNat_le, hn]
      exact ⟨hlo, hhi⟩
    exact mem_holes.mpr ⟨_, hall _ hle.1 hle.2, hle, hn⟩

/-- An interval is found to be empty if it has an upper end and contains nothing. -/
theorem isEmpty_iff : i.isEmpty = true ↔ i.hi ≠ none ∧ ∀ a, i.contains a = false := by
  unfold isEmpty
  cases h : i.hi with
  | none => simp
  | some hi =>
    simp only [Bool.or_eq_true, decide_eq_true_eq, beq_iff_eq, ne_eq, reduceCtorEq,
      not_false_eq_true, true_and, Bool.eq_false_iff, contains_iff, h, Option.some.injEq,
      forall_eq']
    by_cases hle : i.lo ≤ hi
    · rw [countP_eq_iff hle]
      simp [UInt64.not_lt.mpr hle]
    · simp only [UInt64.not_le.mp hle, true_or, true_iff]
      exact fun a ⟨hlo, hhi, _⟩ => hle (UInt64.le_trans hlo hhi)

end Interval

namespace Statement

variable {x : Statement} {a : Amount}

/-- The interval of a statement contains what the statement admits. A strict bound is made one with
its end included; the two that have no amount beyond them leave nothing. -/
theorem contains_interval : x.interval.contains a = true ↔ x.Admits a := by
  unfold interval Admits
  cases x.relation with
  | lt =>
    by_cases hb : x.bound.base = 0
    · simp [hb, Interval.not_contains_empty]
    · simp [hb, Interval.contains_iff, Amount.le_sub_one_iff]
  | eq =>
    simp only [Interval.contains_iff, Option.some.injEq, forall_eq', SortedSet.not_mem_empty,
      not_false_eq_true, and_true]
    exact ⟨fun h => UInt64.le_antisymm h.2 h.1, fun h => h ▸ ⟨UInt64.le_refl _, UInt64.le_refl _⟩⟩
  | gt =>
    by_cases hb : x.bound.base = Amount.top
    · simp [hb, Interval.not_contains_empty, Amount.le_top]
    · simp [hb, Interval.contains_iff, Amount.add_one_le_iff]
  | le | ne | ge => simp [Interval.contains_iff]

theorem hi_interval : x.interval.hi ≠ none ↔ x.IsCap := by
  unfold interval IsCap
  cases x.relation with
  | lt => by_cases hb : x.bound.base = 0 <;> simp [hb, Interval.empty]
  | gt => by_cases hb : x.bound.base = Amount.top <;> simp [hb, Interval.empty]
  | le | eq | ne | ge => simp

end Statement

/-! ### Windows -/

namespace Window

variable {v w : Window} {s : Symbol} {a : Amount} {c : Cost} {x : Statement}

theorem mem_on : x ∈ w.on s ↔ x ∈ w.toList ∧ x.symbol = s := by
  simp [on]

theorem contains_foldl_intersect {l : List Statement} {i : Interval} :
    (l.foldl (fun i y => i.intersect y.interval) i).contains a = true ↔
      i.contains a = true ∧ ∀ y ∈ l, y.Admits a := by
  induction l generalizing i with
  | nil => simp
  | cons y l ih =>
    rw [List.foldl_cons, ih, Interval.contains_intersect, Statement.contains_interval,
      List.forall_mem_cons, and_assoc]

/-- What is admissible is what all statements on the symbol admit. -/
theorem contains_admissible : (w.admissible s).contains a = true ↔ ∀ y ∈ w.on s, y.Admits a := by
  rw [admissible, contains_foldl_intersect]
  simp only [Interval.contains_full, true_and]

theorem hi_foldl_intersect {l : List Statement} {i : Interval} :
    (l.foldl (fun i y => i.intersect y.interval) i).hi ≠ none ↔
      i.hi ≠ none ∨ ∃ y ∈ l, y.IsCap := by
  induction l generalizing i with
  | nil => simp
  | cons y l ih =>
    have hmin : (i.intersect y.interval).hi ≠ none ↔ i.hi ≠ none ∨ y.IsCap := by
      rw [Interval.hi_intersect, Statement.hi_interval]
    rw [List.foldl_cons, ih, hmin, List.exists_mem_cons_iff, or_assoc]

theorem hi_admissible : (w.admissible s).hi ≠ none ↔ ∃ y ∈ w.on s, y.IsCap := by
  rw [admissible, hi_foldl_intersect]
  simp [Interval.full]

/-- A conflict is found where there is an upper bound and no amount is admitted. -/
theorem isEmpty_admissible_iff :
    (w.admissible s).isEmpty = true ↔
      (∃ y ∈ w.on s, y.IsCap) ∧ ¬ ∃ a, ∀ y ∈ w.on s, y.Admits a := by
  simp only [Interval.isEmpty_iff, hi_admissible, ← contains_admissible, not_exists,
    Bool.not_eq_true]

/-! ### Verdicts -/

theorem verdict_eq_satisfied_iff_admits :
    w.verdict c = .satisfied ↔ ∀ s, ∀ y ∈ w.on s, y.Admits (c.get s) := by
  simp only [verdict_eq_satisfied_iff, Statement.verdict_eq_satisfied_iff, mem_on]
  constructor
  · rintro h s y ⟨hy, rfl⟩
    exact h y hy
  · exact fun h y hy => h y.symbol y ⟨hy, rfl⟩

/-- The verdict is satisfied at the costs that are admissible for both symbols, and else it is that
of the first statement that has it, where a violated statement goes before an open one. -/
theorem verdict_agrees (w : Window) (c : Cost) :
    (w.verdict c = .satisfied ↔
      (w.admissible .time).contains c.time = true ∧
        (w.admissible .energy).contains c.energy = true) ∧
    (∀ x, w.verdict c = .violated x ↔
      w.toList.find? (fun y => y.verdict c = .violated y) = some x) ∧
    ∀ x, w.verdict c = .notYet x ↔
      (∀ y ∈ w.toList, ∀ z, y.verdict c ≠ .violated z) ∧
        w.toList.find? (fun y => y.verdict c = .notYet y) = some x := by
  refine ⟨?_, fun x => verdictOf_eq_violated_iff, fun x => verdictOf_eq_notYet_iff⟩
  rw [verdict_eq_satisfied_iff_admits, contains_admissible, contains_admissible]
  exact Symbol.forall_iff

/-! ### Conflicts -/

/-- Time is looked at before energy. -/
theorem reconcile_eq (w : Window) : w.reconcile =
    if (w.admissible .time).isEmpty then .error ⟨.time, w.on .time⟩
    else if (w.admissible .energy).isEmpty then .error ⟨.energy, w.on .energy⟩
    else .ok () := by
  unfold reconcile Symbol.all
  cases ht : (w.admissible .time).isEmpty <;> cases he : (w.admissible .energy).isEmpty <;>
    simp only [List.forM, ht, he, if_true, Bool.false_eq_true, if_false] <;> rfl

theorem reconcile_eq_ok_iff : w.reconcile = .ok () ↔ ∀ s, (w.admissible s).isEmpty = false := by
  rw [Symbol.forall_iff, reconcile_eq]
  split <;> simp_all

/-- A conflict names the first symbol that has one, with its statements. -/
theorem reconcile_eq_error_iff {e : Conflict} :
    w.reconcile = .error e ↔ (w.admissible e.symbol).isEmpty = true ∧
      e.statements = w.on e.symbol ∧
        (e.symbol = .energy → (w.admissible .time).isEmpty = false) := by
  obtain ⟨s, l⟩ := e
  rw [reconcile_eq]
  cases s <;> cases ht : (w.admissible .time).isEmpty <;>
    cases he : (w.admissible .energy).isEmpty <;> simp [@eq_comm _ l]

/-- A window that some cost satisfies is not rejected. -/
theorem reconcile_of_satisfied (h : w.verdict c = .satisfied) : w.reconcile = .ok () := by
  refine reconcile_eq_ok_iff.mpr fun s => Bool.eq_false_iff.mpr fun hempty => ?_
  exact (isEmpty_admissible_iff.mp hempty).2 ⟨c.get s, verdict_eq_satisfied_iff_admits.mp h s⟩

/-- The tightest lower bound on the symbol. -/
def floor (w : Window) (s : Symbol) : Nat := ((w.on s).map Statement.floor).foldr max 0

theorem floor_le_iff {n : Nat} : w.floor s ≤ n ↔ ∀ y ∈ w.on s, y.floor ≤ n := by
  unfold floor
  induction w.on s with
  | nil => simp
  | cons y l ih => rw [List.map_cons, List.foldr_cons, Nat.max_le, ih, List.forall_mem_cons]

/-- Nothing bounds the symbol from above, but every amount from its lower bound on is excluded. -/
def IsExhausted (w : Window) (s : Symbol) : Prop :=
  (∀ y ∈ w.on s, ¬ y.IsCap) ∧
    ∀ a : Amount, w.floor s ≤ a.toNat → ∃ y ∈ w.on s, y.Excludes a

/-- These are the windows without upper bound that admit nothing. -/
theorem isExhausted_iff :
    w.IsExhausted s ↔
      (∀ y ∈ w.on s, ¬ y.IsCap) ∧ ¬ ∃ a, ∀ y ∈ w.on s, y.Admits a := by
  refine and_congr_right fun hcap => ?_
  rw [not_exists]
  refine forall_congr' fun a => ?_
  have hadmits : (∀ y ∈ w.on s, y.Admits a) ↔
      w.floor s ≤ a.toNat ∧ ∀ y ∈ w.on s, ¬ y.Excludes a := by
    rw [floor_le_iff, ← forall₂_and]
    exact forall₂_congr fun y hy => Statement.admits_iff_of_not_isCap (hcap y hy)
  rw [hadmits, not_and]
  simp only [not_forall, not_not, exists_prop]

/-- The intervals of a window find a symbol without admitted amount, unless it is exhausted without
upper bound. So no window is rejected that some cost satisfies, and a rejection names the first such
symbol, with all the statements on it in order. -/
theorem conflict_exact (w : Window) :
    (∀ s, ((w.admissible s).isEmpty = true ↔
        (¬ ∃ a, ∀ y ∈ w.on s, y.Admits a) ∧ ¬ w.IsExhausted s) ∧
      (w.IsExhausted s → ¬ ∃ a, ∀ y ∈ w.on s, y.Admits a)) ∧
    (∀ c, w.verdict c = .satisfied → w.reconcile = .ok ()) ∧
    ∀ e, w.reconcile = .error e ↔ (w.admissible e.symbol).isEmpty = true ∧
      e.statements = w.on e.symbol ∧
        (e.symbol = .energy → (w.admissible .time).isEmpty = false) := by
  refine ⟨fun s => ⟨?_, fun h => (isExhausted_iff.mp h).2⟩, fun c => reconcile_of_satisfied,
    fun e => reconcile_eq_error_iff⟩
  rw [isEmpty_admissible_iff, isExhausted_iff, and_comm]
  refine and_congr_right fun hnone => ?_
  rw [and_iff_left hnone, not_forall₂]
  simp only [not_not, exists_prop]

/-- Only the largest amount is left, and it is excluded: no conflict is found, but nothing is
admitted. With an upper bound as well, the conflict is found. -/
theorem conflict_exact_top :
    let top : Quantity := ⟨Amount.top, ⟨.time, .pico⟩⟩
    let w := ofList [⟨.time, .ge, top⟩, ⟨.time, .ne, top⟩]
    w.IsExhausted .time ∧ (¬ ∃ a, ∀ y ∈ w.on .time, y.Admits a) ∧
      (w.admissible .time).isEmpty = false ∧
      (w.insert ⟨.time, .le, top⟩).reconcile =
        .error ⟨.time, [⟨.time, .le, top⟩, ⟨.time, .ne, top⟩, ⟨.time, .ge, top⟩]⟩ := by
  intro top w
  have hon : w.on .time = [⟨.time, .ne, top⟩, ⟨.time, .ge, top⟩] := by decide
  have hex : w.IsExhausted .time := by
    refine ⟨?_, fun a ha => ?_⟩
    · simp [hon, Statement.IsCap]
    · have hbase : top.base = Amount.top := by decide
      have hfloor : w.floor .time = Amount.top.toNat := by decide +kernel
      rw [hfloor, ← UInt64.le_iff_toNat_le] at ha
      exact ⟨⟨.time, .ne, top⟩, by simp [hon], rfl,
        hbase.trans (UInt64.le_antisymm ha (Amount.le_top a))⟩
  obtain ⟨hempty, hnone⟩ := (conflict_exact w).1 .time
  refine ⟨hex, hnone hex, Bool.eq_false_iff.mpr fun h => (hempty.mp h).2 hex, ?_⟩
  exact ((conflict_exact _).2.2 _).mpr (by decide)

end Window

end CostCTL
