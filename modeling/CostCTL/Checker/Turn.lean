import CostCTL.Checker.Run

/-!
# Turns of a search

A search goes in turns. In each, the waiters of a session that has its result are told, or else
the next pending job is taken and its formula unfolded. Executing what a formula obliges to either
leaves work for later turns, or meets the obligation at once; then the revisit that the work was
linked to is resumed, and in turn the one that it was linked to.
-/

namespace CostCTL

/-- What is known of a precondition. -/
inductive Finding where
  | holds
  | fails (c : Counterexample)
  /-- a branch left its window, which says nothing of the formula -/
  | budget (c : Counterexample)

/-- How the obligation goes on. -/
inductive Reaction where
  | proceed
  | met
  | fail (c : Counterexample)

namespace Finding

def ofJudgement (c : Context) : Judgement → Finding
  | .holds => .holds
  | .fails v => .fails (c.counterexample v)
  | .early v | .late v => .budget (c.counterexample v)

def ofResult? : SessionResult → Option Finding
  | .pending => none
  | .pass => some .holds
  | .fail c => some (.fails c)
  | .exceeded c => some (.budget c)

end Finding

/-- A precondition that holds or fails acts by its kind. A branch that left its window fails the
obligation whatever the kind. -/
def Precondition.react (p : Precondition) (c : Context) : Finding → Reaction
  | .holds => match p.kind with
    | .required => .proceed
    | .skip => .met
    | .ignored => .fail (c.counterexample (.holds p.formula c.node))
  | .fails e => match p.kind with
    | .required => .fail e
    | .skip => .proceed
    | .ignored => .met
  | .budget e => .fail e

/-- What came of executing an obligation. -/
inductive Progress where
  /-- there is work left, or it failed -/
  | waiting
  /-- it is met, and what waits for it may go on -/
  | met
  deriving DecidableEq

namespace RunM

def ofEval {α : Type} : Except EvalError α → RunM α
  | .ok a => return a
  | .error (.atom e) => error (.malformed (.atom e))
  | .error (.temporal f) => fault (.undecidable f)

/-- Check a formula at every successor. -/
def fanOut (g : Kripke) (c : Context) (link : Option RevisitId) (history : History)
    (f : Formula) : RunM Progress := do
  (← edgesAt g c.node).forM fun e => spawn ⟨c.follow history e, f, link⟩
  return .waiting

/-- Go on with an obligation after its precondition. -/
def react (c : Context) (proceed : RunM Progress) : Reaction → RunM Progress
  | .proceed => proceed
  | .met => return .met
  | .fail e => do
    fail c.session e
    return .waiting

/-- Go on with a revisit whose session has a result, unless its own session has one too. -/
def reactTo (i : RevisitId) (c : Context) (p : Precondition) (proceed : RunM Progress)
    (finding : Finding) : RunM Progress := do
  if ← isSettled c.session then
    note (.ownerSettled i)
    return .waiting
  else react c proceed (p.react c finding)

/-- Have a precondition found out in a session. The result may be there already. -/
def askSession (i : RevisitId) (c : Context) (p : Precondition) : RunM (Option Finding) := do
  let root := c.inquiry p.formula
  let (session, created) ← openSession root.sessionKey i
  if created then
    note (.sessionOpened session p.formula c.node)
    spawn { root with session := some session }
  else note (.sessionJoined session i)
  return Finding.ofResult? (← sessionResult session)

def execute (g : Kripke) (c : Context) (link : Option RevisitId) : Obligation → RunM Progress
  | .here f => do
    spawn ⟨c, f, link⟩
    return .waiting
  | .successors f => fanOut g c link c.leave f
  | .step f => fanOut g c link ∅ f
  | .constrain f w =>
    match c.window.merge w with
    | .ok window => do
      spawn ⟨{ c with window }, f, link⟩
      return .waiting
    | .error e => error (.conflict e)
  | .revisit resume p =>
    if p.formula.isState then do
      let judgement ← ofEval (p.formula.judge (c.position (← nodeAt g c.node)))
      react c (execute g c link resume) (p.react c (.ofJudgement c judgement))
    else do
      let i ← addRevisit ⟨c, resume, p, link⟩
      if p.kind = .required then
        spawn (c.demand p.formula i)
        return .waiting
      else
        match ← askSession i c p with
        | some finding => reactTo i c p (execute g c link resume) finding
        | none =>
          if let some owner := c.session then retain owner
          return .waiting

/-- The work linked to a revisit is done: resume it, once, and if it is met at once also the one
that it is linked to, and so on. A chain from the `n`-th revisit has at most `n` members. -/
def resumeChain (g : Kripke) : Nat → Option RevisitId → RunM Unit
  | _, none => return
  | 0, some i => fault (.endlessChain i)
  | n + 1, some i => do
    if ← markResumed i then
      let r ← revisit i
      if !(← isSettled r.session) then
        note (.resuming i r.node)
        if (← execute g r.toContext r.parent r.resume) = .met then resumeChain g n r.parent
    else note (.alreadyResumed i)

def resume (g : Kripke) (link : Option RevisitId) : RunM Unit :=
  resumeChain g (link.elim 0 (·.index)) link

/-- Execute an obligation, and resume its link if it is met. -/
def carryOut (g : Kripke) (link : Option RevisitId) (act : RunM Progress) : RunM Unit := do
  if (← act) = .met then resume g link

/-- Unfold a job, unless its session has its result or its key was visited before. -/
def process (g : Kripke) (j : Job) : RunM Unit := do
  if ← isSettled j.session then
    note (.staleJob j.formula j.node)
  else if ← visit j.visitKey then
    note (.duplicateJob j.formula j.node)
  else
    recordDecomposed
    let node ← nodeAt g j.node
    note (.unfolding j.formula j.node j.inCycle j.session)
    match ← ofEval (j.formula.unfold (j.position node)) with
    | .pass => resume g j.link
    | .fail v => fail j.session (j.counterexample v)
    | .obligation o => carryOut g j.link (execute g j.toContext j.link o)
  release j.session

/-- Tell a revisit the result that it waited for. -/
def tell (g : Kripke) (result : SessionResult) (i : RevisitId) : RunM Unit := do
  let r ← revisit i
  if let some finding := Finding.ofResult? result then
    carryOut g r.parent (reactTo i r.toContext r.precondition
      (execute g r.toContext r.parent r.resume) finding)
  release r.session

def notify (g : Kripke) (i : SessionId) : RunM Unit := do
  let result ← sessionResult i
  (← takeWaiters i).forM (tell g result)

end RunM

structure Settings where
  order : PendingOrder := .depthFirst
  /-- size of the tables at the start, as a power of two -/
  bits : Nat := 12
  /-- tell of the progress after every so many jobs; zero for never -/
  interval : Nat := 100000
  /-- how many jobs may be asked for in a check -/
  popLimit : Option Nat := none

namespace RunM

def reportProgress (interval : Nat) : RunM Unit := do
  modify fun r => { r with processed := r.processed + 1 }
  let r ← get
  if 0 < interval ∧ r.processed % interval = 0 then
    note (.progress r.processed r.store.pendingSessions r.store.stats)

/-- One turn. `false` if there was nothing to do. -/
def turn (g : Kripke) (s : Settings) : RunM Bool := do
  match ← nextResolved with
  | some i =>
    notify g i
    return true
  | none =>
    match ← nextPending s.popLimit with
    | none => return false
    | some i =>
      process g (← job i)
      reportProgress s.interval
      return true

/-- Turns until there is nothing to do, at most `n`. -/
def turns (g : Kripke) (s : Settings) : Nat → RunM Unit
  | 0 => fault .outOfTurns
  | n + 1 => do if ← turn g s then turns g s n

end RunM

/-- As many turns as a requirement can take. Jobs are told apart by their key: the node, the
subformula with its window, the cost, and whether a cycle was closed, all within one session and
one chain of links, which is no longer than the formula is high. -/
def Kripke.turnBound (g : Kripke) (f : Formula) : Nat :=
  let keys := 4 * g.size * f.size * (UInt64.size * UInt64.size)
  Nat.pow (2 * keys + 2) (f.height + 4) * (g.edgeCount + g.size + 5)

end CostCTL
