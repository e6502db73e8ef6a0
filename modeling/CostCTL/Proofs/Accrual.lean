import CostCTL.Proofs.Admissible

/-!
# Verdicts as cost accrues

The cost of a path is added up step by step, and stops at the largest amount. So it never falls, a
window that is violated stays so, and one that is satisfied is not open again unless it has a `!=`.
The verdict of a statement looks ahead: violated is what no amount from here on satisfies, open is
what a larger amount satisfies (`Statement.verdict_eq_violated_iff`, `verdict_eq_notYet_iff`). Only
at the largest amount it does not see that there is none (`Statement.IsStuckAt`).
-/

namespace CostCTL

/-! ### Costs -/

namespace Cost

/-- The cost after the first `n` steps. -/
def after (start : Cost) (steps : Nat → Cost) : Nat → Cost
  | 0 => start
  | n + 1 => after start steps n + steps n

theorem after_mono (start : Cost) (steps : Nat → Cost) {i j : Nat} (h : i ≤ j) :
    start.after steps i ≤ start.after steps j := by
  induction h with
  | refl => exact Cost.le_refl _
  | step _ ih => exact Cost.le_trans ih (le_add _ _)

/-- The cost with another amount for one symbol. -/
def set (c : Cost) (a : Amount) : Symbol → Cost
  | .time => { c with time := a }
  | .energy => { c with energy := a }

theorem get_set (c : Cost) (a : Amount) (s : Symbol) : (c.set a s).get s = a := by
  cases s <;> rfl

theorem le_set {c : Cost} {a : Amount} {s : Symbol} (h : c.get s ≤ a) : c ≤ c.set a s := by
  intro t
  cases s <;> cases t <;> first | exact h | exact UInt64.le_refl _

end Cost

/-! ### Statements -/

namespace Statement

variable {x : Statement} {a b : Amount} {c : Cost}

/-- A statement that is open asks for an amount that the cost has not reached, or has to leave. -/
theorem ahead_of_notYet (h : x.verdict c = .notYet x) :
    x.relation = .eq ∧ c.get x.symbol < x.bound.base ∨
    x.relation = .ne ∧ c.get x.symbol = x.bound.base ∨
    x.relation = .gt ∧ c.get x.symbol ≤ x.bound.base ∨
    x.relation = .ge ∧ c.get x.symbol < x.bound.base := by
  revert h
  simp only [verdict]
  cases hcmp : compare (c.get x.symbol) x.bound.base with
  | lt =>
    have hlt := Std.compare_eq_lt.mp hcmp
    cases x.relation <;> simp [Relation.holds, hlt, UInt64.le_of_lt hlt]
  | eq =>
    have heq := Std.compare_eq_iff_eq.mp hcmp
    cases x.relation <;> simp [Relation.holds, heq]
  | gt =>
    cases x.relation <;> simp [Relation.holds]

/-- What is violated is violated at every larger amount, so none satisfies it. -/
theorem not_admits_of_violated (h : x.verdict c = .violated x) (ha : c.get x.symbol ≤ a) :
    ¬ x.Admits a := by
  intro hadmits
  have hlate := violated_mono h (Cost.le_set ha)
  rw [← c.get_set a x.symbol, ← verdict_eq_satisfied_iff, hlate] at hadmits
  cases hadmits

/-- Nothing larger is left, but the statement counts as open: more than the largest amount is asked
for, or something else where the largest amount is reached. -/
def IsStuckAt (x : Statement) (a : Amount) : Prop :=
  x.bound.base = Amount.top ∧ (x.relation = .gt ∨ x.relation = .ne ∧ a = Amount.top)

theorem not_admits_of_isStuckAt (h : x.IsStuckAt a) (hab : a ≤ b) : ¬ x.Admits b := by
  obtain ⟨hbase, hr | ⟨hr, rfl⟩⟩ := h
  · simp [Admits, hr, hbase, UInt64.not_lt, Amount.le_top]
  · simp [Admits, hr, hbase, UInt64.le_antisymm (Amount.le_top b) hab]

theorem exists_admits_of_notYet (h : x.verdict c = .notYet x)
    (hs : ¬ x.IsStuckAt (c.get x.symbol)) : ∃ a, c.get x.symbol < a ∧ x.Admits a := by
  rcases ahead_of_notYet h with ⟨hr, hv⟩ | ⟨hr, hv⟩ | ⟨hr, hv⟩ | ⟨hr, hv⟩
  · exact ⟨x.bound.base, hv, by simp [Admits, hr]⟩
  · have htop : x.bound.base ≠ Amount.top := fun e => hs ⟨e, .inr ⟨hr, hv.trans e⟩⟩
    have hlt := Amount.lt_add_one htop
    exact ⟨x.bound.base + 1, hv ▸ hlt, by simp [Admits, hr]⟩
  · have htop : x.bound.base ≠ Amount.top := fun e => hs ⟨e, .inl hr⟩
    have hlt := Amount.lt_add_one htop
    exact ⟨x.bound.base + 1, UInt64.lt_of_le_of_lt hv hlt, by simpa [Admits, hr] using hlt⟩
  · exact ⟨x.bound.base, hv, by simp [Admits, hr]⟩

/-- There are three verdicts, each on the statement itself. -/
theorem verdict_cases (x : Statement) (c : Cost) :
    x.verdict c = .satisfied ∨ x.verdict c = .notYet x ∨ x.verdict c = .violated x := by
  cases h : x.verdict c with
  | satisfied => exact .inl rfl
  | notYet y => exact .inr (.inl (eq_of_verdict.2 h ▸ rfl))
  | violated y => exact .inr (.inr (eq_of_verdict.1 h ▸ rfl))

/-- Violated is what no amount from here on satisfies, unless the statement is stuck. -/
theorem verdict_eq_violated_iff :
    x.verdict c = .violated x ↔ ¬ x.IsStuckAt (c.get x.symbol) ∧
      ∀ a, c.get x.symbol ≤ a → ¬ x.Admits a := by
  constructor
  · intro h
    refine ⟨?_, fun a ha => not_admits_of_violated h ha⟩
    rintro ⟨-, hr⟩
    rcases relation_of_violated h with h | h | h <;> simp [h] at hr
  · rintro ⟨hs, hnone⟩
    rcases x.verdict_cases c with h | h | h
    · exact absurd (verdict_eq_satisfied_iff.mp h) (hnone _ (UInt64.le_refl _))
    · obtain ⟨a, ha, hadmits⟩ := exists_admits_of_notYet h hs
      exact absurd hadmits (hnone a (UInt64.le_of_lt ha))
    · exact h

/-- Open is what is not satisfied now but at a larger amount, or is stuck. -/
theorem verdict_eq_notYet_iff :
    x.verdict c = .notYet x ↔ ¬ x.Admits (c.get x.symbol) ∧
      (x.IsStuckAt (c.get x.symbol) ∨ ∃ a, c.get x.symbol < a ∧ x.Admits a) := by
  constructor
  · intro h
    refine ⟨fun hadmits => ?_, or_iff_not_imp_left.mpr (exists_admits_of_notYet h)⟩
    rw [← verdict_eq_satisfied_iff, h] at hadmits
    cases hadmits
  · rintro ⟨hnow, hlater⟩
    rcases x.verdict_cases c with h | h | h
    · exact absurd (verdict_eq_satisfied_iff.mp h) hnow
    · exact h
    · obtain ⟨hs, hnone⟩ := verdict_eq_violated_iff.mp h
      obtain ⟨a, ha, hadmits⟩ := hlater.resolve_left hs
      exact absurd hadmits (hnone a (UInt64.le_of_lt ha))

end Statement

/-! ### Windows -/

namespace Window

/-- Along any steps the cost of each symbol never falls, a violated window stays violated, and one
without `!=` is not open after it was satisfied. A statement is violated if no amount from the
present one on satisfies it, and open if it is not satisfied but a larger amount does so. The
exceptions are the statements that are stuck at the largest amount: these are open for ever. -/
theorem verdict_accrues :
    (∀ (w : Window) (start : Cost) (steps : Nat → Cost) (i j : Nat), i ≤ j →
      ((start.after steps i).time ≤ (start.after steps j).time ∧
        (start.after steps i).energy ≤ (start.after steps j).energy) ∧
      ((∃ x, w.verdict (start.after steps i) = .violated x) →
        ∃ x, w.verdict (start.after steps j) = .violated x) ∧
      ((∀ x ∈ w.toList, x.relation ≠ .ne) → w.verdict (start.after steps i) = .satisfied →
        ∀ x, w.verdict (start.after steps j) ≠ .notYet x)) ∧
    ∀ (x : Statement) (c : Cost),
      (x.verdict c = .violated x ↔ ¬ x.IsStuckAt (c.get x.symbol) ∧
        ∀ a, c.get x.symbol ≤ a → ¬ x.Admits a) ∧
      (x.verdict c = .notYet x ↔ ¬ x.Admits (c.get x.symbol) ∧
        (x.IsStuckAt (c.get x.symbol) ∨ ∃ a, c.get x.symbol < a ∧ x.Admits a)) ∧
      (x.IsStuckAt (c.get x.symbol) → ∀ a, c.get x.symbol ≤ a → ¬ x.Admits a) := by
  constructor
  · intro w start steps i j hij
    have hle := start.after_mono steps hij
    refine ⟨⟨hle .time, hle .energy⟩, fun ⟨x, hx⟩ => violated_mono hx hle, fun hne hs x hx => ?_⟩
    have hconvex : w.isConvex = true := by simpa [isConvex] using hne
    have hahead := isAhead_mono hconvex (isAhead_of_satisfied hs) hle
    rw [isAhead_eq_true_iff.mpr ⟨x, hx⟩] at hahead
    cases hahead
  · exact fun x c => ⟨Statement.verdict_eq_violated_iff, Statement.verdict_eq_notYet_iff,
      fun hs a => Statement.not_admits_of_isStuckAt hs⟩

/-- From close to the largest amount the cost stops there. The window with an upper bound stays
violated, and `t != top` is open where nothing is left. -/
theorem verdict_accrues_top :
    let start : Cost := ⟨Amount.top - 2, 0⟩
    let steps : Nat → Cost := fun _ => ⟨5, 1⟩
    let w := ofList [⟨.time, .le, ⟨3, ⟨.time, .nano⟩⟩⟩, ⟨.energy, .ge, ⟨1, ⟨.energy, .pico⟩⟩⟩]
    let x : Statement := ⟨.time, .ne, ⟨Amount.top, ⟨.time, .pico⟩⟩⟩
    (start.after steps 2).time = Amount.top ∧
      (∃ y, w.verdict (start.after steps 2) = .violated y) ∧
      x.verdict (start.after steps 2) = .notYet x ∧ ∀ a, Amount.top ≤ a → ¬ x.Admits a := by
  intro start steps w x
  have htop : (start.after steps 2).time = Amount.top := by decide
  have hfirst : w.verdict start = .violated ⟨.time, .le, ⟨3, ⟨.time, .nano⟩⟩⟩ := by decide
  have hstuck : x.IsStuckAt ((start.after steps 2).get x.symbol) := ⟨by decide, .inr ⟨rfl, htop⟩⟩
  obtain ⟨-, hopen, hnone⟩ := verdict_accrues.2 x (start.after steps 2)
  refine ⟨htop, ?_, hopen.mpr ⟨hnone hstuck _ (UInt64.le_refl _), .inl hstuck⟩, fun a ha => ?_⟩
  · exact (verdict_accrues.1 w start steps 0 2 (by decide)).2.1 ⟨_, hfirst⟩
  · rw [← htop] at ha
    exact hnone hstuck a ha

end Window

end CostCTL
