import CostCTL.Checker.Error
import CostCTL.Checker.Notice

/-!
# Runs

The state of a search and the operations on it. A run works on a store and keeps a list of
sessions whose result is not yet passed on. It also keeps what it told (`notices`) and what it
asked of the store (`calls`), which nothing in a run ever reads.

A run may halt. It is refuted by a counterexample, or it stops with an error, or it misses a
record that should be there. The state it halts in is kept.
-/

namespace CostCTL

/-- What must not happen in a search. -/
inductive Fault where
  | missingNode (i : NodeId)
  | missingJob (i : JobId)
  | missingRevisit (i : RevisitId)
  | missingSession (i : SessionId)
  /-- a session is released more often than it was retained -/
  | overReleased (i : SessionId)
  /-- a path formula is to be decided at one node -/
  | undecidable (f : Formula)
  /-- revisits wait for one another without end -/
  | endlessChain (i : RevisitId)
  /-- the search does not end -/
  | outOfTurns
  deriving DecidableEq

/-- Why a check ends before its last requirement. -/
inductive Stop where
  | error (e : CheckError)
  | fault (f : Fault)
  deriving DecidableEq

/-- Why a search ends before its worklist is empty. -/
inductive Halt where
  | refuted (c : Counterexample)
  | stop (s : Stop)
  deriving DecidableEq

/-- What a run asks of its store, with the answer it gets. -/
inductive Call where
  | reset
  | intern (i : JobId) (j : Job)
  | pop (i : Option JobId)
  /-- no more jobs may be taken -/
  | limit
  | visit (inCycle seen : Bool)
  | suspend (i : RevisitId) (r : Revisit)
  | resume (i : RevisitId) (first : Bool)
  | session (i : SessionId) (created : Bool) (waiter : RevisitId)
  | complete (i : SessionId) (result : SessionResult) (first : Bool)
  | exceed (i : SessionId) (c : Counterexample)
  | waiters (i : SessionId) (waiters : List RevisitId)
  | retain (i : SessionId)
  | release (i : SessionId) (last : Bool)

structure Run where
  store : Store
  /-- sessions with a result that their waiters do not know yet -/
  resolved : Deque SessionId
  /-- how often the worklist was asked for a job -/
  pops : Nat
  /-- how many jobs of the current requirement were taken -/
  processed : Nat
  notices : Array Notice
  calls : Array Call

namespace Run

def start (store : Store) : Run := ⟨store, .empty, 0, 0, #[], #[.reset]⟩

def note (r : Run) (n : Notice) : Run := { r with notices := r.notices.push n }

def call (r : Run) (c : Call) : Run := { r with calls := r.calls.push c }

end Run

abbrev RunM := EStateM Halt Run

namespace RunM

variable {α : Type}

def note (n : Notice) : RunM Unit := modify (·.note n)

def fault (f : Fault) : RunM α := throw (.stop (.fault f))

def error (e : CheckError) : RunM α := throw (.stop (.error e))

/-- An answer that must be there. -/
def expect (f : Fault) : Option α → RunM α
  | some a => pure a
  | none => fault f

def ask (f : Fault) (query : Store → Option α) : RunM α := do expect f (query (← get).store)

/-- Change the store, and write down the call. -/
def update (op : Store → α × Store) (call : α → Call) : RunM α := fun r =>
  match r with
  | ⟨store, resolved, pops, processed, notices, calls⟩ =>
    let (a, store) := op store
    .ok a ⟨store, resolved, pops, processed, notices, calls.push (call a)⟩

/-- Change the store, if it has the records for it, and write down the call. -/
def update? (f : Fault) (op : Store → Option α × Store) (call : α → Call) : RunM α := fun r =>
  match r with
  | ⟨store, resolved, pops, processed, notices, calls⟩ =>
    match op store with
    | (some a, store) => .ok a ⟨store, resolved, pops, processed, notices, calls.push (call a)⟩
    | (none, store) =>
      .error (.stop (.fault f)) ⟨store, resolved, pops, processed, notices, calls⟩

/-! ### Jobs -/

def job (i : JobId) : RunM Job := ask (.missingJob i) (·.job? i)

def nodeAt (g : Kripke) (i : NodeId) : RunM Node := expect (.missingNode i) (g.node? i)

def edgesAt (g : Kripke) (i : NodeId) : RunM (List Edge) := expect (.missingNode i) (g.successors? i)

/-- The next job, unless `limit` jobs were asked for already. -/
def nextPending (limit : Option Nat) : RunM (Option JobId) := do
  if limit.any (· ≤ (← get).pops) then
    modify (·.call .limit)
    return none
  else
    modify fun r => { r with pops := r.pops + 1 }
    update (·.nextPending) .pop

def visit (k : VisitKey) : RunM Bool := update (·.visit k) (.visit k.inCycle)

def recordDecomposed : RunM Unit := modify fun r => { r with store := r.store.recordDecomposed }

/-! ### Revisits -/

def revisit (i : RevisitId) : RunM Revisit := ask (.missingRevisit i) (·.revisit? i)

def addRevisit (r : Revisit) : RunM RevisitId := update (·.addRevisit r) (.suspend · r)

def markResumed (i : RevisitId) : RunM Bool :=
  update? (.missingRevisit i) (·.markResumed? i) (.resume i)

/-! ### Sessions -/

def openSession (k : SessionKey) (waiter : RevisitId) : RunM (SessionId × Bool) :=
  update (·.openSession k waiter) fun (i, created) => .session i created waiter

def sessionResult (i : SessionId) : RunM SessionResult :=
  ask (.missingSession i) (·.sessionResult? i)

/-- Whether the work belongs to a session that has its result. -/
def isSettled : Option SessionId → RunM Bool
  | none => return false
  | some i => return !(← sessionResult i).isPending

def takeWaiters (i : SessionId) : RunM (List RevisitId) :=
  update? (.missingSession i) (·.takeWaiters? i) (.waiters i)

def recordExceeded (i : SessionId) (c : Counterexample) : RunM Unit :=
  update? (.missingSession i) (·.recordExceeded? i c) fun _ => .exceed i c

def retain (i : SessionId) : RunM Unit :=
  update? (.missingSession i) (·.retain? i) fun _ => .retain i

/-- Work for the session is done or parked; the work for it counts one less. -/
def releaseOne (i : SessionId) : RunM Bool :=
  update? (.overReleased i) (·.release? i) (.release i)

/-- Give a session its result, and have its waiters told. -/
def complete (i : SessionId) (result : SessionResult) : RunM Unit := do
  if ← update? (.missingSession i) (·.complete? i result) (.complete i result) then
    modify fun r => { r with resolved := r.resolved.pushBack i }
  else note (.sessionSettled i)

def nextResolved : RunM (Option SessionId) := do
  let r ← get
  match r.resolved.popFront? with
  | none => return none
  | some (i, resolved) =>
    set { r with resolved }
    return some i

/-- Put a job on the worklist, on behalf of its session. -/
def spawn (j : Job) : RunM Unit := do
  if let some i := j.session then retain i
  let i ← update (·.internJob j) (.intern · j)
  modify fun r => { r with store := r.store.enqueue i }

/-- Work for a session is done. A session without further work is decided: it has passed unless
some branch left its window. -/
def release : Option SessionId → RunM Unit
  | none => return
  | some i => do
    if !(← releaseOne i) then return
    if ← isSettled (some i) then return
    match ← ask (.missingSession i) (·.exceeded? i) with
    | some c =>
      note (.sessionExceeded i c.violation)
      complete i (.exceeded c)
    | none =>
      note (.sessionPassed i)
      complete i .pass

/-- A violation refutes the requirement. In a session it decides the session, except that a branch
which left its window is only remembered. -/
def fail : Option SessionId → Counterexample → RunM Unit
  | none, c => throw (.refuted c)
  | some i, c =>
    if c.violation.isBudget then do
      note (.sessionDeferred i c.violation)
      recordExceeded i c
    else do
      note (.sessionFailed i c.violation)
      complete i (.fail c)

end RunM

end CostCTL
