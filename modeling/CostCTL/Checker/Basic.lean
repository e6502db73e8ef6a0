import CostCTL.Checker.Turn

/-!
# The checker

Requirements are checked one after the other, each from every initial node, until one is violated.
A checker may be used again: every check forgets the records that the one before left behind, of
whatever kind its end was, and leaves its own for a look at what it took.
-/

namespace CostCTL

abbrev Specification := List Formula

def Specification.validate (spec : Specification) : Except FormulaError Unit :=
  spec.forM Formula.validate

/-- Search for a violation of `f`, which is in universal form, from every initial node. -/
def RunM.search (g : Kripke) (s : Settings) (f : Formula) : RunM Unit := do
  g.initial.toList.forM fun node => spawn (.root node f)
  modify fun r => { r with processed := 0 }
  turns g s (g.turnBound f)
  let pending := (← get).store.pendingSessions
  if 0 < pending then error (.stalled pending)

/-- The first lines on a requirement. -/
def Run.announce (r : Run) (g : Kripke) (index : Nat) (requirement : Formula) : Run :=
  let r := r.note (.checking index requirement g.initial.size)
  let f := requirement.universal
  if f = requirement then r else r.note (.universalForm f)

def checkRequirement (g : Kripke) (s : Settings) (index : Nat) (requirement : Formula) :
    EStateM Stop Run Unit := fun r =>
  match RunM.search g s requirement.universal (r.announce g index requirement) with
  | .ok _ r => .ok () r
  | .error (.refuted c) r =>
    .error (.error (.unsatisfied index requirement c)) (r.note (.violated index c))
  | .error (.stop e) r => .error e r

/-- Check requirements, numbered from `index`. -/
def checkFrom (g : Kripke) (s : Settings) : Nat → List Formula → EStateM Stop Run Unit
  | _, [] => return
  | index, f :: rest => do
    checkRequirement g s index f
    checkFrom g s (index + 1) rest

def checkAll (g : Kripke) (s : Settings) (spec : Specification) : EStateM Stop Run Unit := do
  checkFrom g s 0 spec
  modify fun r => r.note (.allHold spec.length r.store.stats)

structure Checker where
  graph : Kripke
  settings : Settings
  store : Store
  /-- sessions whose waiters the last check did not come to tell -/
  resolved : Deque SessionId

/-- What a check comes to, and what was told and done on the way. -/
structure Report where
  result : Except Stop Unit
  notices : Array Notice
  calls : Array Call

namespace Checker

/-- A checker for a graph, if the size of its tables is allowed. -/
def new? (graph : Kripke) (settings : Settings) : Option Checker := do
  return ⟨graph, settings, ← Store.ofConfig? ⟨settings.order, settings.bits⟩, .empty⟩

def stats (c : Checker) : Stats := c.store.stats

/-- What a run leaves behind. -/
def leave (c : Checker) (r : Run) : Checker := { c with store := r.store, resolved := r.resolved }

/-- Check a specification. One with a malformed formula is refused and leaves the checker as it
is. -/
def check (c : Checker) (spec : Specification) : Report × Checker :=
  match spec.validate with
  | .error e => (⟨.error (.error (.ofFormulaError e)), #[], #[]⟩, c)
  | .ok _ =>
    match checkAll c.graph c.settings spec (.start c.store.reset) with
    | .ok _ r => (⟨.ok (), r.notices, r.calls⟩, c.leave r)
    | .error e r => (⟨.error e, r.notices, r.calls⟩, c.leave r)

end Checker

end CostCTL
