import CostCTL.Proofs.Branch
import Mathlib.Data.Nat.Find
import Mathlib.Logic.Relation

/-!
# Path formulas step by step

Until on all paths is a matter of a node and its successors: where `r` does not hold, `l` does, and
the until holds at every successor (`AllUntil.of_step`, `AllUntil.step`). The weak until follows if
such steps lead from node to node for ever (`AllUntil.of_closed`), and the strong until fails on a
cycle without `r` (`AllUntil.not_of_cycle`). All of this is for any relation, so that it can be used
for nodes and for nodes with costs.

`Formula.holds_iff_step` says it for the formulas, and `Obligation.Owes` for obligations.
-/

namespace CostCTL

section Runs

variable {α : Type} {R : α → α → Prop} {l r : α → Prop} {weak : Prop} {a b : α} {x : Nat → α}

/-- The sequence starts at `a` and follows the relation for ever. -/
structure IsRun (R : α → α → Prop) (a : α) (x : Nat → α) : Prop where
  start : x 0 = a
  step : ∀ k, R (x k) (x (k + 1))

theorem IsRun.tail (h : IsRun R a x) : IsRun R (x 1) fun k => x (k + 1) :=
  ⟨rfl, fun k => h.step (k + 1)⟩

theorem IsRun.cons (h : IsRun R b x) (hab : R a b) :
    IsRun R a fun k => k.casesOn a x := by
  refine ⟨rfl, fun k => ?_⟩
  cases k with
  | zero =>
    rw [← h.start] at hab
    exact hab
  | succ k => exact h.step k

/-- Where every step can be followed by another, there is a run. -/
theorem exists_isRun {P : α → Prop} (h : ∀ a, P a → ∃ b, R a b ∧ P b) (ha : P a) :
    ∃ x, IsRun R a x := by
  choose next hnext using h
  let y (k : Nat) : { b : α // P b } :=
    k.rec ⟨a, ha⟩ fun _ b => ⟨next b.1 b.2, (hnext b.1 b.2).2⟩
  exact ⟨fun k => (y k).1, rfl, fun k => (hnext (y k).1 (y k).2).1⟩

/-- On every run `r` comes and `l` holds until then, or else `l` holds for ever and that will do. -/
def AllUntil (R : α → α → Prop) (l r : α → Prop) (weak : Prop) (a : α) : Prop :=
  ∀ x, IsRun R a x → (∃ k, r (x k) ∧ ∀ j < k, l (x j)) ∨ (weak ∧ ∀ k, l (x k))

namespace AllUntil

theorem of_step (h : r a ∨ (l a ∧ ∀ b, R a b → AllUntil R l r weak b)) :
    AllUntil R l r weak a := by
  intro x hx
  rcases h with hr | ⟨hl, hnext⟩
  · exact .inl ⟨0, hx.start ▸ hr, fun j hj => absurd hj j.not_lt_zero⟩
  · have hl : l (x 0) := hx.start ▸ hl
    rcases hnext (x 1) (hx.start ▸ hx.step 0) _ hx.tail with ⟨k, hk, hj⟩ | ⟨hw, hk⟩
    · refine .inl ⟨k + 1, hk, fun j hlt => ?_⟩
      cases j with
      | zero => exact hl
      | succ j => exact hj j (by omega)
    · refine .inr ⟨hw, fun k => ?_⟩
      cases k with
      | zero => exact hl
      | succ k => exact hk k

theorem step (h : AllUntil R l r weak a) (ha : ∃ x, IsRun R a x) :
    r a ∨ (l a ∧ ∀ b, R a b → AllUntil R l r weak b) := by
  by_cases hr : r a
  · exact .inl hr
  refine .inr ⟨?_, fun b hab x hx => ?_⟩
  · obtain ⟨x, hx⟩ := ha
    rcases h x hx with ⟨k, hk, hj⟩ | ⟨-, hk⟩
    · cases k with
      | zero => exact absurd (hx.start ▸ hk) hr
      | succ k => exact hx.start ▸ hj 0 (by omega)
    · exact hx.start ▸ hk 0
  · rcases h _ (hx.cons hab) with ⟨k, hk, hj⟩ | ⟨hw, hk⟩
    · cases k with
      | zero => exact absurd hk hr
      | succ k => exact .inl ⟨k, hk, fun j hlt => hj (j + 1) (by omega)⟩
    · exact .inr ⟨hw, fun k => hk (k + 1)⟩

/-- Where the steps never lead out of a set, the weak until holds. -/
theorem of_closed {V : α → Prop} (hV : ∀ a, V a → r a ∨ (l a ∧ ∀ b, R a b → V b)) (ha : V a)
    (hw : weak) : AllUntil R l r weak a := by
  intro x hx
  by_cases hr : ∃ k, r (x k)
  · classical
    -- up to the first `r` the run stays in the set
    have hstay (j : Nat) (hj : j ≤ Nat.find hr) : V (x j) := by
      induction j with
      | zero => exact hx.start ▸ ha
      | succ j ih =>
        have hnot := Nat.find_min hr (show j < Nat.find hr by omega)
        exact ((hV _ (ih (by omega))).resolve_left hnot).2 _ (hx.step j)
    exact .inl ⟨Nat.find hr, Nat.find_spec hr, fun j hj =>
      ((hV _ (hstay j (Nat.le_of_lt hj))).resolve_left (Nat.find_min hr hj)).1⟩
  · have hr (k : Nat) : ¬ r (x k) := fun h => hr ⟨k, h⟩
    have hstay (j : Nat) : V (x j) := by
      induction j with
      | zero => exact hx.start ▸ ha
      | succ j ih => exact ((hV _ ih).resolve_left (hr j)).2 _ (hx.step j)
    exact .inr ⟨hw, fun k => ((hV _ (hstay k)).resolve_left (hr k)).1⟩

/-- A cycle without `r` can be followed for ever. -/
theorem not_of_cycle (hc : Relation.TransGen (fun a b => R a b ∧ ¬ r a) a a) (hw : ¬ weak) :
    ¬ AllUntil R l r weak a := by
  intro h
  obtain ⟨x, hx⟩ := exists_isRun (R := fun a b => R a b ∧ ¬ r a)
    (P := fun b => Relation.TransGen (fun a b => R a b ∧ ¬ r a) b a) (a := a)
    (fun b hb => by
      obtain ⟨d, hbd, hda⟩ := Relation.TransGen.head'_iff.mp hb
      rcases Relation.reflTransGen_iff_eq_or_transGen.mp hda with rfl | hda
      · exact ⟨_, hbd, hc⟩
      · exact ⟨d, hbd, hda⟩) hc
  rcases h x ⟨hx.start, fun k => (hx.step k).1⟩ with ⟨k, hk, -⟩ | ⟨hw', -⟩
  · exact (hx.step k).2 hk
  · exact hw hw'

end AllUntil

end Runs

variable {g : Kripke}

namespace Kripke

/-- An edge leads from the first node to the second. -/
def Step (g : Kripke) (i j : NodeId) : Prop := ∃ e ∈ g.successors i, e.target = j

theorem isRun_node (p : g.Path) : IsRun g.Step (p.node 0) p.node :=
  ⟨rfl, fun k => ⟨p.edge k, p.leaves k, (p.arrives k).symm⟩⟩

/-- Edges can be chosen for a run. -/
theorem exists_path_of_isRun {i : NodeId} {x : Nat → NodeId} (h : IsRun g.Step i x) :
    ∃ p : g.Path, p.node = x := by
  choose edge hleaves harrives using h.step
  exact ⟨⟨x, edge, hleaves, fun k => (harrives k).symm⟩, rfl⟩

theorem exists_isRun {i : NodeId} (h : i.index < g.size) : ∃ x, IsRun g.Step i x := by
  obtain ⟨p, rfl⟩ := Path.exists_path h
  exact ⟨p.node, isRun_node p⟩

end Kripke

/-- Paths are as good as runs. -/
theorem Quantifier.over_all_iff {i : NodeId} {P : (Nat → NodeId) → Prop} :
    (Quantifier.all.over g i fun p => P p.node) ↔ ∀ x, IsRun g.Step i x → P x := by
  constructor
  · intro h x hx
    obtain ⟨p, rfl⟩ := Kripke.exists_path_of_isRun hx
    exact h p hx.start
  · intro h p hp
    exact h _ (hp ▸ Kripke.isRun_node p)

namespace Formula

variable {f : Formula} {i : NodeId}

/-! ### Universal form -/

/-- A sequence refutes `P` until `Q` by reaching a place where neither holds before any `Q`. -/
theorem not_unless_iff {P Q : Nat → Prop} :
    (¬ ((∃ k, (¬ P k ∧ ¬ Q k) ∧ ∀ j < k, ¬ Q j) ∨ ∀ k, ¬ Q k)) ↔ ∃ k, Q k ∧ ∀ j < k, P j := by
  classical
  constructor
  · intro h
    obtain ⟨hk, hQ⟩ := not_or.mp h
    have hQ : ∃ k, Q k := not_forall_not.mp hQ
    refine ⟨Nat.find hQ, Nat.find_spec hQ, fun j hj => by_contra fun hP => hk ⟨j, ?_, ?_⟩⟩
    · exact ⟨hP, Nat.find_min hQ hj⟩
    · exact fun m hm => Nat.find_min hQ (Nat.lt_trans hm hj)
  · rintro ⟨k, hQ, hP⟩ (⟨m, hm, hmin⟩ | hnone)
    · rcases Nat.lt_or_ge m k with hlt | hge
      · exact hm.1 (hP m hlt)
      · rcases Nat.lt_or_eq_of_le hge with hlt | rfl
        · exact hmin k hlt hQ
        · exact hm.2 hQ
    · exact hnone k hQ

theorem not_until_iff {P Q : Nat → Prop} :
    (¬ ∃ k, (¬ P k ∧ ¬ Q k) ∧ ∀ j < k, ¬ Q j) ↔ (∃ k, Q k ∧ ∀ j < k, P j) ∨ ∀ k, P k := by
  classical
  constructor
  · intro h
    by_cases hQ : ∃ k, Q k
    · exact .inl (not_unless_iff.mp fun h' => h'.elim h fun hn => hQ.elim fun k hk => hn k hk)
    · have hQ (k : Nat) : ¬ Q k := fun hk => hQ ⟨k, hk⟩
      exact .inr fun k => by_contra fun hP => h ⟨k, ⟨hP, hQ k⟩, fun j _ => hQ j⟩
  · rintro (h | h) ⟨m, hm, hmin⟩
    · exact not_unless_iff.mpr h (.inl ⟨m, hm, hmin⟩)
    · exact hm.1 (h m)

theorem holds_universal (f : Formula) (i : NodeId) : f.universal.Holds g i ↔ f.Holds g i := by
  induction f generalizing i with
  | atom => rfl
  | not f ih => exact not_congr (ih i)
  | within f w ih => exact ih i
  | and l r ihl ihr => exact and_congr (ihl i) (ihr i)
  | or l r ihl ihr => exact or_congr (ihl i) (ihr i)
  | implies l r ihl ihr => exact imp_congr (ihl i) (ihr i)
  | always q f ih | eventually q f ih | next q f ih =>
    cases q with
    | all => simp [universal, Holds, Quantifier.over, ih]
    | some => simp [universal, Holds, Quantifier.over, ih]
  | strongUntil q l r ihl ihr =>
    cases q with
    | all => simp [universal, Holds, Quantifier.over, ihl, ihr]
    | some =>
      simp only [universal, Holds, Quantifier.over, neither, ihl, ihr, not_forall]
      exact exists_congr fun p => by rw [exists_prop, not_unless_iff]
  | weakUntil q l r ihl ihr =>
    cases q with
    | all => simp [universal, Holds, Quantifier.over, ihl, ihr]
    | some =>
      simp only [universal, Holds, Quantifier.over, neither, ihl, ihr, not_forall]
      exact exists_congr fun p => by rw [exists_prop, not_until_iff]

/-! ### Formulas that go on -/

/-- The formula is decided on the way from node to node. -/
def isOngoing : Formula → Bool
  | always .all _ | eventually .all _ | strongUntil .all _ _ | weakUntil .all _ _ => true
  | _ => false

/-- What holds as long as the formula goes on. -/
def keeps : Formula → Formula
  | always _ f => f
  | strongUntil _ l _ | weakUntil _ l _ => l
  | _ => .not falsum

/-- What ends it. -/
def ends : Formula → Formula
  | eventually _ f => f
  | strongUntil _ _ r | weakUntil _ _ r => r
  | _ => falsum

theorem not_holds_falsum : ¬ falsum.Holds g i := by
  rintro ⟨node, -, h⟩
  cases h

theorem holds_iff_allUntil (hf : f.isOngoing = true) :
    f.Holds g i ↔
      AllUntil g.Step (f.keeps.Holds g) (f.ends.Holds g) (f.isEventuality = false) i := by
  cases f with
  | always q f =>
    cases q with
    | all =>
      rw [Holds, Quantifier.over_all_iff (P := fun x => ∀ k, f.Holds g (x k))]
      simp [AllUntil, keeps, ends, isEventuality, not_holds_falsum]
    | some => cases hf
  | eventually q f =>
    cases q with
    | all =>
      rw [Holds, Quantifier.over_all_iff (P := fun x => ∃ k, f.Holds g (x k))]
      simp [AllUntil, keeps, ends, isEventuality, Holds, not_holds_falsum]
    | some => cases hf
  | strongUntil q l r =>
    cases q with
    | all =>
      rw [Holds, Quantifier.over_all_iff (P := fun x =>
        ∃ k, r.Holds g (x k) ∧ ∀ j < k, l.Holds g (x j))]
      simp [AllUntil, keeps, ends, isEventuality]
    | some => cases hf
  | weakUntil q l r =>
    cases q with
    | all =>
      rw [Holds, Quantifier.over_all_iff (P := fun x =>
        (∃ k, r.Holds g (x k) ∧ ∀ j < k, l.Holds g (x j)) ∨ ∀ k, l.Holds g (x k))]
      simp [AllUntil, keeps, ends, isEventuality]
    | some => cases hf
  | atom | not | and | or | implies | next | within => cases hf

theorem holds_of_step (hf : f.isOngoing = true) (h : f.ends.Holds g i ∨
    (f.keeps.Holds g i ∧ ∀ e ∈ g.successors i, f.Holds g e.target)) : f.Holds g i := by
  refine (holds_iff_allUntil hf).mpr (.of_step (h.imp_right fun ⟨hk, hnext⟩ => ⟨hk, ?_⟩))
  rintro j ⟨e, he, rfl⟩
  exact (holds_iff_allUntil hf).mp (hnext e he)

theorem holds_iff_step (hf : f.isOngoing = true) (hi : i.index < g.size) :
    f.Holds g i ↔ f.ends.Holds g i ∨
      (f.keeps.Holds g i ∧ ∀ e ∈ g.successors i, f.Holds g e.target) := by
  refine ⟨fun h => ?_, holds_of_step hf⟩
  refine (((holds_iff_allUntil hf).mp h).step (Kripke.exists_isRun hi)).imp_right fun ⟨hk, hnext⟩ =>
    ⟨hk, fun e he => (holds_iff_allUntil hf).mpr (hnext _ ⟨e, he, rfl⟩)⟩

/-- An edge that leads on from a node where the formula is not ended. -/
def Onward (g : Kripke) (f : Formula) (i j : NodeId) : Prop := g.Step i j ∧ ¬ f.ends.Holds g i

theorem not_holds_of_cycle (hf : f.isEventuality = true)
    (hc : Relation.TransGen (f.Onward g) i i) : ¬ f.Holds g i := by
  have hongoing : f.isOngoing = true := by
    cases f with
    | eventually q | strongUntil q =>
      cases q with
      | all => rfl
      | some => cases hf
    | atom | not | and | or | implies | always | next | weakUntil | within => cases hf
  rw [holds_iff_allUntil hongoing]
  exact AllUntil.not_of_cycle hc (by simp [hf])

theorem holds_next_iff : (next .all f).Holds g i ↔ ∀ e ∈ g.successors i, f.Holds g e.target := by
  rw [Holds, Quantifier.over_all_iff (P := fun x => f.Holds g (x 1))]
  constructor
  · intro h e he
    obtain ⟨x, hx⟩ := Kripke.exists_isRun (Kripke.target_inside he)
    have := h _ (hx.cons ⟨e, he, rfl⟩)
    exact hx.start ▸ this
  · intro h x hx
    obtain ⟨e, he, heq⟩ := hx.step 0
    rw [hx.start] at he
    exact heq ▸ h e he

end Formula

open Formula

/-! ### What obligations ask for -/

/-- What has to hold at the node for the obligation to be met. -/
def Obligation.Owes (g : Kripke) (i : NodeId) : Obligation → Prop
  | .here f | .constrain f _ => f.Holds g i
  | .successors f | .step f => ∀ e ∈ g.successors i, f.Holds g e.target
  | .revisit o p =>
    match p.kind with
    | .required => p.formula.Holds g i ∧ o.Owes g i
    | .skip => p.formula.Holds g i ∨ o.Owes g i
    | .ignored => ¬ p.formula.Holds g i

/-- Without window, a path formula does what it does inside. -/
theorem Formula.eq_inside_of_proceed {f : Formula} {p : Position} {looped : Unfolding}
    {inside o : Obligation} (hw : p.window = ∅) (hl : looped ≠ .obligation o)
    (h : proceed p f looped inside = .obligation o) : inside = o ∧ p.inCycle = false := by
  unfold proceed at h
  rw [Position.beforeWindow, hw] at h
  split at h
  · exact absurd h hl
  · next hc => exact ⟨Unfolding.obligation.inj h, by simpa using hc⟩

/-- Without window, the obligation that a formula leaves asks for the formula. -/
theorem Formula.holds_iff_owes {f : Formula} {p : Position} {o : Obligation} {i : NodeId}
    (hw : p.window = ∅) (hi : i.index < g.size)
    (h : f.unfoldTemporal p = .obligation o) : f.Holds g i ↔ o.Owes g i := by
  cases f with
  | atom => cases h
  | not e =>
    cases h
    rfl
  | and l r =>
    cases h
    rfl
  | or l r =>
    cases h
    rfl
  | implies l r =>
    cases h
    exact imp_iff_not_or
  | next q e =>
    cases q with
    | all =>
      cases h
      exact holds_next_iff
    | some =>
      cases h
      exact (holds_universal _ i).symm
  | always q e =>
    cases q with
    | all =>
      obtain ⟨rfl, -⟩ := eq_inside_of_proceed hw (by simp) h
      rw [holds_iff_step rfl hi]
      exact or_iff_right not_holds_falsum
    | some =>
      cases h
      exact (holds_universal _ i).symm
  | eventually q e =>
    cases q with
    | all =>
      obtain ⟨rfl, -⟩ := eq_inside_of_proceed hw (by simp) h
      rw [holds_iff_step rfl hi]
      exact or_congr_right (and_iff_right not_holds_falsum)
    | some =>
      cases h
      exact (holds_universal _ i).symm
  | strongUntil q l r | weakUntil q l r =>
    cases q with
    | all =>
      obtain ⟨rfl, -⟩ := eq_inside_of_proceed hw (by simp) h
      exact holds_iff_step rfl hi
    | some =>
      cases h
      exact (holds_universal _ i).symm
  | within e w =>
    cases h
    rfl

end CostCTL
