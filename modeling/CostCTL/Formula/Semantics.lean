import CostCTL.Kripke.Path
import CostCTL.Obligation

/-!
# What formulas mean

Satisfaction of a formula at a node, over the infinite paths from it. It is a matter of truth alone:
windows are left out of account, so it says what a formula means only if that has none. On state
formulas it is what looking at the node finds (`holds_iff_of_holdsAt`).
-/

namespace CostCTL

/-- The property of paths is had by all paths from the node, or by some. -/
def Quantifier.over (q : Quantifier) (g : Kripke) (i : NodeId) (P : g.Path → Prop) : Prop :=
  match q with
  | .all => ∀ p : g.Path, p.node 0 = i → P p
  | .some => ∃ p : g.Path, p.node 0 = i ∧ P p

namespace Formula

variable {g : Kripke}

def Holds (g : Kripke) : Formula → NodeId → Prop
  | atom a, i => ∃ node, g.node? i = some node ∧ a.evaluate node i = .ok true
  | not f, i => ¬ f.Holds g i
  | and l r, i => l.Holds g i ∧ r.Holds g i
  | or l r, i => l.Holds g i ∨ r.Holds g i
  | implies l r, i => l.Holds g i → r.Holds g i
  | always q f, i => q.over g i fun p => ∀ k, f.Holds g (p.node k)
  | eventually q f, i => q.over g i fun p => ∃ k, f.Holds g (p.node k)
  | next q f, i => q.over g i fun p => f.Holds g (p.node 1)
  | strongUntil q l r, i => q.over g i fun p =>
    ∃ k, r.Holds g (p.node k) ∧ ∀ j < k, l.Holds g (p.node j)
  | weakUntil q l r, i => q.over g i fun p =>
    (∃ k, r.Holds g (p.node k) ∧ ∀ j < k, l.Holds g (p.node j)) ∨ ∀ k, l.Holds g (p.node k)
  | within f _, i => f.Holds g i

def isWindowFree : Formula → Bool
  | atom _ => true
  | not f | always _ f | eventually _ f | next _ f => f.isWindowFree
  | and l r | or l r | implies l r | strongUntil _ l r | weakUntil _ l r =>
    l.isWindowFree && r.isWindowFree
  | within .. => false

def atoms : Formula → List Atom
  | atom a => [a]
  | not f | always _ f | eventually _ f | next _ f | within f _ => f.atoms
  | and l r | or l r | implies l r | strongUntil _ l r | weakUntil _ l r => l.atoms ++ r.atoms

/-- The atoms have a truth value at every node. -/
def IsDefinedOn (g : Kripke) (f : Formula) : Prop :=
  ∀ a ∈ f.atoms, ∀ i node, g.node? i = some node → ∃ b, a.evaluate node i = .ok b

theorem exists_of_bind_eq_ok {ε α β : Type} {x : Except ε α} {k : α → Except ε β} {b : β}
    (h : (x >>= k) = .ok b) : ∃ a, x = .ok a ∧ k a = .ok b := by
  cases x with
  | error e => cases h
  | ok a => exact ⟨a, rfl, h⟩

theorem error_of_bind_eq_error {ε α β : Type} {x : Except ε α} {k : α → Except ε β} {e : ε}
    (h : (x >>= k) = .error e) : x = .error e ∨ ∃ a, x = .ok a ∧ k a = .error e := by
  cases x with
  | error e' => cases h; exact .inl rfl
  | ok a => exact .inr ⟨a, rfl, h⟩

/-- A state formula never meets a path formula at a node. -/
theorem holdsAt_ne_temporal {node : Node} {i : NodeId} {f : Formula} (hf : f.isState = true)
    (p : Formula) : f.holdsAt node i ≠ .error (.temporal p) := by
  intro h
  induction f with
  | atom a =>
    rw [holdsAt] at h
    cases ha : a.evaluate node i <;> rw [ha] at h <;> cases h
  | not f ih =>
    obtain h | ⟨b, -, h⟩ := error_of_bind_eq_error h
    · exact ih hf h
    · cases h
  | and l r ihl ihr | or l r ihl ihr | implies l r ihl ihr =>
    rw [isState, Bool.and_eq_true] at hf
    obtain h | ⟨b, -, h⟩ := error_of_bind_eq_error h
    · exact ihl hf.1 h
    · cases b
      all_goals first | exact ihr hf.2 h | cases h
  | always | eventually | next | strongUntil | weakUntil | within => cases hf

theorem judge_ne_temporal {p : Position} {f : Formula} (hf : f.isState = true) (e : Formula) :
    f.judge p ≠ .error (.temporal e) := by
  intro h
  unfold judge at h
  split at h
  · cases h
  · cases h
  · obtain h | ⟨b, -, h⟩ := error_of_bind_eq_error h
    · exact holdsAt_ne_temporal hf e h
    · cases b <;> cases h

theorem unfold_ne_temporal {p : Position} {f e : Formula} :
    f.unfold p ≠ .error (.temporal e) := by
  intro h
  unfold Formula.unfold at h
  split at h
  · next hf =>
    obtain h | ⟨b, -, h⟩ := error_of_bind_eq_error h
    · exact judge_ne_temporal hf e h
    · cases b <;> cases h
  · cases h

/-- Where a formula is evaluated at a node, satisfaction there is its value. -/
theorem holds_iff_of_holdsAt {i : NodeId} {node : Node} (hn : g.node? i = some node) {f : Formula}
    {b : Bool} (h : f.holdsAt node i = .ok b) : f.Holds g i ↔ b = true := by
  induction f generalizing b with
  | atom a =>
    rw [holdsAt] at h
    cases ha : a.evaluate node i with
    | error e => rw [ha] at h; cases h
    | ok v => rw [ha] at h; cases h; simp [Holds, hn, ha]
  | not f ih =>
    obtain ⟨v, hf, hv⟩ := exists_of_bind_eq_ok h
    cases hv
    simp [Holds, ih hf]
  | and l r ihl ihr =>
    obtain ⟨v, hl, hr⟩ := exists_of_bind_eq_ok h
    cases v with
    | true => simp [Holds, ihl hl, ihr hr]
    | false => cases hr; simp [Holds, ihl hl]
  | or l r ihl ihr =>
    obtain ⟨v, hl, hr⟩ := exists_of_bind_eq_ok h
    cases v with
    | true => cases hr; simp [Holds, ihl hl]
    | false => simp [Holds, ihl hl, ihr hr]
  | implies l r ihl ihr =>
    obtain ⟨v, hl, hr⟩ := exists_of_bind_eq_ok h
    cases v with
    | true => simp [Holds, ihl hl, ihr hr]
    | false => cases hr; simp [Holds, ihl hl]
  | always | eventually | next | strongUntil | weakUntil | within => cases h

end Formula

end CostCTL
