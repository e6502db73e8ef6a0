import CostCTL.Proofs.Evaluate
import CostCTL.Proofs.Finished

/-!
# Rewriting and unfolding keep the meaning

Two things are done to a formula before any of it is looked at elsewhere. It is brought into
universal form, which changes nothing of its meaning and nothing at all where there is nothing to do
(`Formula.universal_retraction`). And it is unfolded at a node: there it is decided, or else it
holds if and only if the obligation does that it leaves (`Formula.unfold_settles`).
-/

namespace CostCTL

variable {g : Kripke} {f : Formula} {i : NodeId}

/-! ### Universal form -/

/-- The universal form of a formula holds where the formula does and asks about no single path. It
is the formula itself if that asks about none, so rewriting twice is rewriting once. -/
theorem Formula.universal_retraction (f : Formula) :
    (∀ (g : Kripke) (i : NodeId), f.universal.Holds g i ↔ f.Holds g i) ∧
    f.universal.isUniversal = true ∧ (f.isUniversal = true → f.universal = f) ∧
    f.universal.universal = f.universal :=
  ⟨fun _ i => holds_universal f i, isUniversal_universal f, universal_of_isUniversal,
    universal_of_isUniversal (isUniversal_universal f)⟩

theorem Formula.universal_retraction_until :
    let f := strongUntil .some (.atom (.const true)) falsum
    f.isUniversal = false ∧
    f.universal = .not (.weakUntil .all (.not falsum) (neither (.atom (.const true)) falsum)) ∧
    f.universal.isUniversal = true ∧ f.universal.universal = f.universal :=
  ⟨rfl, rfl, rfl, (universal_retraction (universal _)).2.2.1 rfl⟩

/-! ### Unfolding -/

/-- What the obligation says of the node. A precondition stands beside what goes on after it, as its
kind tells: with it, instead of it, or its negation instead of it. -/
def Obligation.Holds (g : Kripke) (i : NodeId) : Obligation → Prop
  | .here f | .constrain f _ => f.Holds g i
  | .successors f | .step f => ∀ e ∈ g.successors i, f.Holds g e.target
  | .revisit o p =>
    match p.kind with
    | .required => p.formula.Holds g i ∧ o.Holds g i
    | .skip => p.formula.Holds g i ∨ o.Holds g i
    | .ignored => ¬ p.formula.Holds g i ∨ o.Holds g i

/-- The unfolding of the formula is right about it at the node. -/
def Unfolding.Settles (g : Kripke) (i : NodeId) (f : Formula) : Unfolding → Prop
  | .pass => f.Holds g i
  | .fail _ => ¬ f.Holds g i
  | .obligation o => f.Holds g i ↔ o.Holds g i

namespace Formula

/-- A precondition is ignored only by what can never hold. -/
theorem owes_iff_holds {p : Position} {o : Obligation} (h : f.unfoldTemporal p = .obligation o) :
    o.Owes g i ↔ o.Holds g i := by
  have hproceed {looped : Unfolding} {inside : Obligation} (hl : looped ≠ .obligation o)
      (hin : inside.Owes g i ↔ inside.Holds g i)
      (h : proceed p f looped inside = .obligation o) : o.Owes g i ↔ o.Holds g i := by
    unfold proceed at h
    split at h
    · exact absurd h hl
    · split at h
      · cases h
        rfl
      · cases h
        exact hin
  cases f with
  | atom => cases h
  | not e =>
    cases h
    exact (or_iff_left not_holds_falsum).symm
  | and | or | implies | within =>
    cases h
    rfl
  | next q e =>
    cases q <;> cases h <;> rfl
  | always q e | eventually q e =>
    cases q with
    | all => exact hproceed (by simp) .rfl h
    | some =>
      cases h
      rfl
  | strongUntil q l r | weakUntil q l r =>
    cases q with
    | all => exact hproceed (by simp) .rfl h
    | some =>
      cases h
      rfl

/-- Without window, a state formula with a value is decided at once. -/
theorem settles_of_isState (hs : f.isState = true) (hd : f.IsDefinedOn g) {p : Position}
    (hn : g.node? p.id = some p.node) (hw : p.window = ∅) :
    ∃ u, f.unfold p = .ok u ∧ u.Settles g p.id f := by
  obtain ⟨b, hb⟩ := (hd.evaluates.isValuedOn hs) p.id p.node hn
  have hjudge : f.judge p = .ok (if b then .holds else .fails (.unsatisfied f p.id)) := by
    rw [judge, hw, hb]
    cases b <;> rfl
  have hholds := holds_iff_of_holdsAt hn hb
  rw [Formula.unfold, if_pos hs, hjudge]
  cases b with
  | true => exact ⟨.pass, rfl, hholds.mpr rfl⟩
  | false => exact ⟨_, rfl, fun h => by cases hholds.mp h⟩

/-- Without window, and not back at a node of its own path, a formula with defined atoms is unfolded
at every node. If it passes it holds there, if it fails it does not, and otherwise it holds if and
only if the obligation does. -/
theorem unfold_settles (g : Kripke) (f : Formula) (p : Position) (hd : f.IsDefinedOn g)
    (hn : g.node? p.id = some p.node) (hw : p.window = ∅) (hc : p.inCycle = false) :
    ∃ u, f.unfold p = .ok u ∧ u.Settles g p.id f := by
  by_cases hs : f.isState = true
  · exact settles_of_isState hs hd hn hw
  · refine ⟨f.unfoldTemporal p, if_neg hs, ?_⟩
    cases hu : f.unfoldTemporal p with
    | pass =>
      obtain ⟨hcycle, -⟩ := unfoldTemporal_eq_pass (by simpa using hs) hu
      cases hc.symm.trans hcycle
    | fail v =>
      obtain ⟨-, hcycle, -⟩ := unfoldTemporal_eq_fail hu
      cases hc.symm.trans hcycle
    | obligation o =>
      have hi : p.id.index < g.size := (Array.getElem?_eq_some_iff.mp hn).1
      exact (holds_iff_owes hw hi hu).trans (owes_iff_holds hu)

theorem unfold_settles_loop :
    (Formula.always .some falsum).Holds .loop ⟨0⟩ ↔
      (Obligation.here (.not (.eventually .all (.not falsum)))).Holds .loop ⟨0⟩ := by
  obtain ⟨u, hu, hsettles⟩ := unfold_settles .loop (.always .some falsum)
    ⟨⟨0⟩, ⟨⟨∅, false, "", ""⟩, .read⟩, false, .zero, ∅⟩
    (fun a ha i node _ => by
      obtain rfl : a = .const false := by simpa [atoms, falsum] using ha
      exact ⟨false, rfl⟩) rfl rfl rfl
  cases hu
  exact hsettles

end Formula

end CostCTL
