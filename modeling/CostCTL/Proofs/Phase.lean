import CostCTL.Proofs.Branch

/-!
# Windows as cost grows

Cost only grows along a path. A statement that is violated stays so, and one that is satisfied or
violated does not become open again, unless it is a `!=`. So a window without `!=` has up to three
phases, one after the other: before it, inside, and after it. A window of lower bounds has no third.
-/

namespace CostCTL

/-! ### Costs -/

namespace Cost

/-- No symbol costs more. -/
def le (c d : Cost) : Prop := ∀ s, c.get s ≤ d.get s

instance : LE Cost := ⟨le⟩

protected theorem le_refl (c : Cost) : c ≤ c := fun _ => UInt64.le_refl _

protected theorem le_trans {a b c : Cost} (h : a ≤ b) (h' : b ≤ c) : a ≤ c :=
  fun s => UInt64.le_trans (h s) (h' s)

protected theorem le_antisymm {a b : Cost} (h : a ≤ b) (h' : b ≤ a) : a = b := by
  obtain ⟨t, e⟩ := a
  obtain ⟨t', e'⟩ := b
  have ht : t = t' := UInt64.le_antisymm (h .time) (h' .time)
  have he : e = e' := UInt64.le_antisymm (h .energy) (h' .energy)
  rw [ht, he]

theorem zero_le (c : Cost) : zero ≤ c := by
  intro s
  cases s <;> exact UInt64.zero_le

theorem le_add (c d : Cost) : c ≤ c + d := by
  intro s
  rw [get_add, UInt64.le_iff_toNat_le, Amount.plus, Amount.toNat_saturate]
  have := (c.get s).toNat_lt
  simp only [UInt64.size]
  omega

end Cost

/-! ### Statements -/

namespace Statement

variable {x y : Statement} {c d : Cost}

/-- An amount that has reached the bound does not come back under it. -/
theorem compare_mono (x : Statement) (h : c ≤ d) :
    (compare (c.get x.symbol) x.bound.base = .gt → compare (d.get x.symbol) x.bound.base = .gt) ∧
    (compare (c.get x.symbol) x.bound.base = .eq → compare (d.get x.symbol) x.bound.base ≠ .lt) := by
  have hle := UInt64.le_iff_toNat_le.mp (h x.symbol)
  refine ⟨fun hgt => ?_, fun heq hlt => ?_⟩
  · have := UInt64.lt_iff_toNat_lt.mp (Std.compare_eq_gt.mp hgt)
    exact Std.compare_eq_gt.mpr (UInt64.lt_iff_toNat_lt.mpr (by omega))
  · have := UInt64.lt_iff_toNat_lt.mp (Std.compare_eq_lt.mp hlt)
    rw [Std.compare_eq_iff_eq.mp heq] at hle
    omega

theorem violated_mono (h : x.verdict c = .violated y) (hcd : c ≤ d) : x.verdict d = .violated y := by
  have hm := x.compare_mono hcd
  revert h hm
  simp only [verdict]
  cases compare (c.get x.symbol) x.bound.base <;> cases compare (d.get x.symbol) x.bound.base <;>
    cases x.relation <;> simp [Relation.holds]

/-- The statement is not open any more: it is satisfied, or lost. -/
theorem notYet_mono (hr : x.relation ≠ .ne) (h : x.verdict d = .notYet y) (hcd : c ≤ d) :
    x.verdict c = .notYet y := by
  have hm := x.compare_mono hcd
  revert h hm hr
  simp only [verdict]
  cases compare (c.get x.symbol) x.bound.base <;> cases compare (d.get x.symbol) x.bound.base <;>
    cases x.relation <;> simp [Relation.holds]

/-- Only upper bounds can be lost. -/
theorem relation_of_violated (h : x.verdict c = .violated y) :
    x.relation = .lt ∨ x.relation = .le ∨ x.relation = .eq := by
  revert h
  simp only [verdict]
  cases x.relation <;> simp
  all_goals
    split <;> simp

end Statement

/-! ### Windows -/

namespace Window

variable {w : Window} {c d e : Cost} {x : Statement}

theorem verdict_of_not_isAhead (h : w.isAhead c = false) :
    w.verdict c = .satisfied ∨ ∃ x, w.verdict c = .violated x := by
  unfold isAhead at h
  cases hv : w.verdict c with
  | satisfied => exact .inl rfl
  | notYet x => simp [hv] at h
  | violated x => exact .inr ⟨x, rfl⟩

theorem isAhead_of_satisfied (h : w.verdict c = .satisfied) : w.isAhead c = false := by
  simp [isAhead, h]

theorem verdict_eq_satisfied_iff :
    w.verdict c = .satisfied ↔ ∀ x ∈ w.toList, x.verdict c = .satisfied := by
  unfold verdict
  induction w.toList with
  | nil => simp [verdictOf]
  | cons x l ih =>
    rw [verdictOf, List.forall_mem_cons, ← ih]
    cases x.verdict c <;> cases verdictOf c l <;> simp

theorem exists_violated (hx : x ∈ w.toList) (h : x.verdict c = .violated x) :
    ∃ y, w.verdict c = .violated y := by
  by_contra hnone
  exact verdictOf_ne_violated_iff.mp (not_exists.mp hnone) x hx x h

/-- What is after the window stays after it. -/
theorem violated_mono (h : w.verdict c = .violated x) (hcd : c ≤ d) :
    ∃ y, w.verdict d = .violated y := by
  obtain ⟨hx, hv⟩ := verdictOf_violated h
  exact exists_violated hx (Statement.violated_mono hv hcd)

theorem isAhead_eq_true_iff : w.isAhead c = true ↔ ∃ x, w.verdict c = .notYet x := by
  unfold isAhead
  cases w.verdict c <;> simp

/-- The window has no `!=`, so it is one stretch of costs. -/
def isConvex (w : Window) : Bool := w.toList.all (·.relation != .ne)

/-- What is not before the window does not come before it. -/
theorem isAhead_mono (hw : w.isConvex = true) (h : w.isAhead c = false) (hcd : c ≤ d) :
    w.isAhead d = false := by
  by_contra hd
  obtain ⟨x, hx⟩ := isAhead_eq_true_iff.mp (Bool.of_not_eq_false hd)
  obtain ⟨hmem, hlate⟩ := verdictOf_notYet hx
  have hr : x.relation ≠ .ne := by simpa using List.all_eq_true.mp hw x hmem
  have hearly := Statement.notYet_mono hr hlate hcd
  rcases verdict_of_not_isAhead h with hs | ⟨y, hy⟩
  · rw [verdict_eq_satisfied_iff.mp hs x hmem] at hearly
    cases hearly
  · obtain ⟨z, hz⟩ := violated_mono hy hcd
    rw [hx] at hz
    cases hz

theorem satisfied_between (hw : w.isConvex = true) (h : w.isAhead c = false) (hcd : c ≤ d)
    (hde : d ≤ e) (he : w.verdict e = .satisfied) : w.verdict d = .satisfied := by
  refine (verdict_of_not_isAhead (isAhead_mono hw h hcd)).resolve_right fun ⟨x, hx⟩ => ?_
  obtain ⟨y, hy⟩ := violated_mono hx hde
  rw [he] at hy
  cases hy

/-- The window has no upper bound, so that it cannot be passed. -/
def isUnbounded (w : Window) : Bool :=
  w.toList.all fun x => x.relation == .gt || x.relation == .ge || x.relation == .ne

theorem not_violated_of_isUnbounded (hw : w.isUnbounded = true) : w.verdict c ≠ .violated x := by
  intro h
  obtain ⟨hx, hv⟩ := verdictOf_violated h
  have hr := List.all_eq_true.mp hw x hx
  rcases Statement.relation_of_violated hv with hlt | hle | heq <;> simp_all

theorem verdict_of_isEmpty (h : w.isEmpty = true) : w.verdict c = .satisfied := by
  rw [verdict_eq_satisfied_iff, List.isEmpty_iff.mp h]
  exact fun x hx => absurd hx List.not_mem_nil

end Window

end CostCTL
