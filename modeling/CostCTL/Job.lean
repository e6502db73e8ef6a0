import CostCTL.Kripke.Basic
import CostCTL.Obligation
import CostCTL.Sorted.Map

/-!
# Jobs, revisits and sessions

A job is a formula to be checked at a node. A revisit is an obligation that waits for a
precondition. Both stand in a context: how the branch got to the node. A session is a search of
its own for the truth of one formula, whose result any number of revisits may wait for.
-/

namespace CostCTL

/-- The cost at the latest visit of each node that a path formula came through. -/
abbrev History := SortedMap NodeId Cost

/-- Whether a path formula that comes to `node` at `cost` has closed a cycle. Before the window
path formulas look at nothing, so an earlier visit counts only if both lie inside the window, or
if nothing was spent since. -/
def closesCycle (h : History) (node : NodeId) (cost : Cost) (w : Window) : Bool :=
  match h.get? node with
  | some seen => seen == cost || !(w.isAhead seen || w.isAhead cost)
  | none => false

structure Context where
  node : NodeId
  /-- the nodes that the current path formula came through before this one -/
  history : History
  /-- the branch from an initial node to this one, latest node first -/
  trail : List NodeId
  /-- cost accumulated since the requirement started -/
  cost : Cost
  window : Window
  /-- the session that the work belongs to, if it is not the requirement's own -/
  session : Option SessionId
  deriving DecidableEq

namespace Context

/-- A requirement at its first node. -/
def start (node : NodeId) : Context := ⟨node, ∅, [node], .zero, ∅, none⟩

def inCycle (c : Context) : Bool := closesCycle c.history c.node c.cost c.window

/-- Without a window the cost does not matter. -/
def relevantCost (c : Context) : Cost := if c.window.isEmpty then .zero else c.cost

def branch (c : Context) : List NodeId := c.trail.reverse

def counterexample (c : Context) (v : Violation) : Counterexample := ⟨v, c.branch⟩

def position (c : Context) (node : Node) : Position := ⟨c.node, node, c.inCycle, c.cost, c.window⟩

/-- The history after leaving the node. -/
def leave (c : Context) : History := c.history.insert c.node c.cost

/-- The context at the end of an edge. -/
def follow (c : Context) (history : History) (e : Edge) : Context :=
  { c with node := e.target, history, trail := e.target :: c.trail, cost := c.cost + e.cost }

end Context

/-- What a job is decided by. Jobs with equal keys are looked at once. -/
structure VisitKey where
  node : NodeId
  formula : Formula
  inCycle : Bool
  window : Window
  cost : Cost
  link : Option RevisitId
  session : Option SessionId
  deriving DecidableEq

/-- What a session is decided by. -/
structure SessionKey where
  node : NodeId
  formula : Formula
  window : Window
  cost : Cost
  deriving DecidableEq

structure Job extends Context where
  formula : Formula
  /-- the revisit to resume once this job is done -/
  link : Option RevisitId
  deriving DecidableEq

namespace Job

def root (node : NodeId) (f : Formula) : Job := ⟨.start node, f, none⟩

def visitKey (j : Job) : VisitKey :=
  ⟨j.node, j.formula, j.inCycle, j.window, j.relevantCost, j.link, j.session⟩

def sessionKey (j : Job) : SessionKey := ⟨j.node, j.formula, j.window, j.relevantCost⟩

end Job

/-- The first job of a session that finds out a formula. -/
def Context.inquiry (c : Context) (f : Formula) : Job :=
  ⟨{ c with history := ∅, session := none }, f, none⟩

/-- The job that checks a formula which a revisit requires. -/
def Context.demand (c : Context) (f : Formula) (i : RevisitId) : Job :=
  ⟨{ c with history := ∅ }, f, some i⟩

structure Revisit extends Context where
  resume : Obligation
  precondition : Precondition
  /-- the revisit to resume once this one is done -/
  parent : Option RevisitId
  deriving DecidableEq

inductive SessionResult where
  | pending
  | pass
  | fail (c : Counterexample)
  /-- some branch left its window, and none failed -/
  | exceeded (c : Counterexample)
  deriving DecidableEq

def SessionResult.isPending : SessionResult → Bool
  | pending => true
  | _ => false

end CostCTL
