import CostCTL.Formula.Universal
import CostCTL.Violation

/-!
# Unfolding a formula at a position

One step of checking: a formula at a node is decided there, or it leaves one obligation. The
obligation of a connective or a path operator is to go on with `resume` once a precondition is
known, in a way that depends on the precondition's kind:

* `l ∧ r` goes on with `r` and requires `l`; `l ∨ r` goes on with `r` unless `l` holds;
* `¬f` has nothing to go on with and is refuted if `f` holds;
* `AG f` requires `f` and goes on at the successors; `AF f` goes on there unless `f` holds;
* the untils go on, unless `r` holds, with the requirement of `l` and then at the successors.

Path operators look at their operands only inside their window. Before it they move on.
-/

namespace CostCTL

/-- What the truth of a precondition means for the obligation that waits for it. -/
inductive Reliance where
  /-- it must hold, then the obligation goes on -/
  | required
  /-- if it holds the obligation is met, otherwise it goes on -/
  | skip
  /-- if it holds the obligation fails, otherwise it is met -/
  | ignored
  deriving DecidableEq, Repr

structure Precondition where
  kind : Reliance
  formula : Formula
  deriving DecidableEq

inductive Obligation where
  /-- check the formula at the same node -/
  | here (f : Formula)
  /-- check it at every successor, as part of the same path formula -/
  | successors (f : Formula)
  /-- check it at every successor, afresh -/
  | step (f : Formula)
  | revisit (resume : Obligation) (precondition : Precondition)
  /-- check it at the same node, within a further window -/
  | constrain (f : Formula) (w : Window)
  deriving DecidableEq

structure Position where
  id : NodeId
  node : Node
  /-- the path formula has been at this node before -/
  inCycle : Bool
  /-- cost accumulated since the requirement started -/
  cost : Cost
  window : Window

def Position.beforeWindow (p : Position) : Bool := p.window.isAhead p.cost

/-- A formula that has no truth value at a node. -/
inductive EvalError where
  | atom (e : AtomError)
  /-- a path formula cannot be decided at one node -/
  | temporal (f : Formula)
  deriving DecidableEq

/-- A state formula at a position, with regard to the window. -/
inductive Judgement where
  | holds
  | fails (v : Violation)
  /-- the window is not reached -/
  | early (v : Violation)
  /-- the window is passed -/
  | late (v : Violation)
  deriving DecidableEq

inductive Unfolding where
  | pass
  | fail (v : Violation)
  | obligation (o : Obligation)
  deriving DecidableEq

namespace Formula

/-- The truth value of a state formula at a node. Operands are looked at from left to right, and
only as far as needed. -/
def holdsAt (node : Node) (id : NodeId) : Formula → Except EvalError Bool
  | atom a => (a.evaluate node id).mapError .atom
  | not f => do return !(← f.holdsAt node id)
  | and l r => do if ← l.holdsAt node id then r.holdsAt node id else return false
  | or l r => do if ← l.holdsAt node id then return true else r.holdsAt node id
  | implies l r => do if ← l.holdsAt node id then r.holdsAt node id else return true
  | f => .error (.temporal f)

/-- The window is looked at first. -/
def judge (f : Formula) (p : Position) : Except EvalError Judgement :=
  match p.window.verdict p.cost with
  | .violated s => return .late (.constraint s p.cost p.id)
  | .notYet s => return .early (.unreached s p.cost p.id)
  | .satisfied => do
    if ← f.holdsAt p.node p.id then return .holds else return .fails (.unsatisfied f p.id)

/-- A path operator that has come back to a node is decided by `looped`. Before the window it
moves on, and inside it does `inside`. -/
def proceed (p : Position) (f : Formula) (looped : Unfolding) (inside : Obligation) : Unfolding :=
  if p.inCycle then looped
  else if p.beforeWindow then .obligation (.successors f)
  else .obligation inside

def untilObligation (f l r : Formula) : Obligation :=
  .revisit (.revisit (.successors f) ⟨.required, l⟩) ⟨.skip, r⟩

/-- The unfolding of a formula that is no state formula. -/
def unfoldTemporal (p : Position) (f : Formula) : Unfolding :=
  match f with
  | atom _ => .pass
  | not e => .obligation (.revisit (.here falsum) ⟨.ignored, e⟩)
  | and l r => .obligation (.revisit (.here r) ⟨.required, l⟩)
  | or l r => .obligation (.revisit (.here r) ⟨.skip, l⟩)
  | implies l r => .obligation (.revisit (.here r) ⟨.skip, .not l⟩)
  | always .all e => proceed p f .pass (.revisit (.successors f) ⟨.required, e⟩)
  | eventually .all e =>
    proceed p f (.fail (.noWitness f p.id)) (.revisit (.successors f) ⟨.skip, e⟩)
  | next .all e => .obligation (.step e)
  | strongUntil .all l r => proceed p f (.fail (.noWitness f p.id)) (untilObligation f l r)
  | weakUntil .all l r => proceed p f .pass (untilObligation f l r)
  | within e w => .obligation (.constrain e w)
  | _ => .obligation (.here f.universal)

def unfold (p : Position) (f : Formula) : Except EvalError Unfolding :=
  if f.isState then do
    match ← f.judge p with
    | .holds => return .pass
    | .fails v | .early v | .late v => return .fail v
  else return f.unfoldTemporal p

end Formula

end CostCTL
