import CostCTL.Deque
import CostCTL.Digest.Job
import CostCTL.SeenSet

/-!
# The store of a search

All records of a search: jobs, each held once, and the worklist of those still to be done; the
keys already visited; revisits; and sessions with the revisits that wait for them. Records are
numbered from one. An operation on a number that was never given answers `none` and changes nothing.
-/

namespace CostCTL

/-- Which pending job comes next. -/
inductive PendingOrder where
  /-- the latest -/
  | depthFirst
  /-- the earliest -/
  | breadthFirst
  deriving DecidableEq, Repr

structure StoreConfig where
  order : PendingOrder
  /-- size of the tables at the start, as a power of two -/
  bits : Nat
  deriving DecidableEq, Repr

def StoreConfig.default : StoreConfig := ⟨.depthFirst, 12⟩

structure RevisitEntry where
  revisit : Revisit
  resumed : Bool

structure Session where
  result : SessionResult
  /-- the revisits that wait for the result, in the order they came -/
  waiters : Deque RevisitId
  /-- jobs queued and revisits waiting on behalf of this session -/
  outstanding : Nat
  /-- the first branch that left its window -/
  exceeded : Option Counterexample

def Session.fresh : Session := ⟨.pending, .empty, 0, none⟩

structure Stats where
  jobs : Nat
  enqueued : Nat
  duplicates : Nat
  decomposed : Nat
  revisits : Nat
  sessions : Nat
  sharedSessions : Nat
  deriving DecidableEq, Repr

def Stats.text (s : Stats) : String :=
  "StoreStats \x7b jobs: " ++ toString s.jobs ++ ", enqueued: " ++ toString s.enqueued
    ++ ", duplicates: " ++ toString s.duplicates ++ ", decomposed: " ++ toString s.decomposed
    ++ ", revisits: " ++ toString s.revisits ++ ", sessions: " ++ toString s.sessions
    ++ ", shared_sessions: " ++ toString s.sharedSessions ++ " \x7d"

structure Store where
  config : StoreConfig
  jobs : Table Job
  pending : Deque JobId
  visited : SeenSet VisitKey
  revisits : Array RevisitEntry
  sessionKeys : Table SessionKey
  sessions : Array Session
  enqueued : Nat
  decomposed : Nat
  shared : Nat

namespace Store

/-- Without records. -/
def empty (config : StoreConfig) : Store :=
  ⟨config, .withBits config.bits, .empty, .withBits config.bits, #[], .withBits config.bits, #[],
    0, 0, 0⟩

def ofConfig? (config : StoreConfig) : Option Store :=
  if config.bits ≤ Table.maxBits then some (empty config) else none

/-- Forget all records. The tables stay as large as they have become. -/
def reset (s : Store) : Store :=
  ⟨s.config, s.jobs.clear, .empty, s.visited.clear, #[], s.sessionKeys.clear, #[], 0, 0, 0⟩

def stats (s : Store) : Stats :=
  ⟨s.jobs.size, s.enqueued, s.visited.hits, s.decomposed, s.revisits.size, s.sessions.size,
    s.shared⟩

/-! ### Jobs -/

/-- The number of a job. Equal jobs have one number. -/
def internJob (s : Store) (j : Job) : JobId × Store :=
  match s with
  | { jobs, config, pending, visited, revisits, sessionKeys, sessions, enqueued, decomposed,
      shared } =>
    let ((n, _), jobs) := jobs.put j
    (⟨n⟩, ⟨config, jobs, pending, visited, revisits, sessionKeys, sessions, enqueued, decomposed,
      shared⟩)

def job? (s : Store) (i : JobId) : Option Job := s.jobs.get? i.index

def enqueue (s : Store) (i : JobId) : Store :=
  { s with enqueued := s.enqueued + 1, pending := s.pending.pushBack i }

def popPending? (s : Store) : Option (JobId × Deque JobId) :=
  match s.config.order with
  | .depthFirst => s.pending.popBack?
  | .breadthFirst => s.pending.popFront?

def nextPending (s : Store) : Option JobId × Store :=
  match s.popPending? with
  | some (i, pending) => (some i, { s with pending })
  | none => (none, s)

/-- Whether the key was visited before; it is from now on. -/
def visit (s : Store) (k : VisitKey) : Bool × Store :=
  match s with
  | { jobs, config, pending, visited, revisits, sessionKeys, sessions, enqueued, decomposed,
      shared } =>
    let (seen, visited) := visited.visit k
    (seen, ⟨config, jobs, pending, visited, revisits, sessionKeys, sessions, enqueued, decomposed,
      shared⟩)

def recordDecomposed (s : Store) : Store := { s with decomposed := s.decomposed + 1 }

/-! ### Revisits -/

def addRevisit (s : Store) (r : Revisit) : RevisitId × Store :=
  (⟨s.revisits.size + 1⟩, { s with revisits := s.revisits.push ⟨r, false⟩ })

def revisitRecord? (s : Store) : RevisitId → Option RevisitEntry
  | ⟨0⟩ => none
  | ⟨i + 1⟩ => s.revisits[i]?

def revisit? (s : Store) (i : RevisitId) : Option Revisit := (s.revisitRecord? i).map (·.revisit)

/-- Note that a revisit was resumed; `true` the first time. -/
def markResumed? (s : Store) (i : RevisitId) : Option Bool × Store :=
  match s.revisitRecord? i with
  | none => (none, s)
  | some e => (some !e.resumed,
    { s with revisits := s.revisits.modify (i.index - 1) fun e => { e with resumed := true } })

/-! ### Sessions -/

def session? (s : Store) : SessionId → Option Session
  | ⟨0⟩ => none
  | ⟨i + 1⟩ => s.sessions[i]?

def modifySession (s : Store) (i : SessionId) (f : Session → Session) : Store :=
  { s with sessions := s.sessions.modify (i.index - 1) f }

/-- The session for a key, a new one if there is none, and whether it is new. While it is pending
the waiter is noted. -/
def openSession (s : Store) (k : SessionKey) (waiter : RevisitId) : (SessionId × Bool) × Store :=
  match s with
  | { jobs, config, pending, visited, revisits, sessionKeys, sessions, enqueued, decomposed,
      shared } =>
    let ((n, created), sessionKeys) := sessionKeys.put k
    let sessions := if created then sessions.push .fresh else sessions
    let shared := if created then shared else shared + 1
    let join := fun (t : Session) =>
      if t.result.isPending then { t with waiters := t.waiters.pushBack waiter } else t
    ((⟨n⟩, created), ⟨config, jobs, pending, visited, revisits, sessionKeys,
      sessions.modify (n - 1) join, enqueued, decomposed, shared⟩)

def sessionResult? (s : Store) (i : SessionId) : Option SessionResult :=
  (s.session? i).map (·.result)

/-- Give a pending session its result. `false` if it has one, which then stays. -/
def complete? (s : Store) (i : SessionId) (result : SessionResult) : Option Bool × Store :=
  match s.session? i with
  | none => (none, s)
  | some t =>
    if t.result.isPending then (some true, s.modifySession i fun t => { t with result })
    else (some false, s)

/-- Remember a branch that left its window, if it is the first one. -/
def recordExceeded? (s : Store) (i : SessionId) (c : Counterexample) : Option Unit × Store :=
  match s.session? i with
  | none => (none, s)
  | some _ => (some (), s.modifySession i fun t =>
    { t with exceeded := t.exceeded.or (some c) })

def exceeded? (s : Store) (i : SessionId) : Option (Option Counterexample) :=
  (s.session? i).map (·.exceeded)

def takeWaiters? (s : Store) (i : SessionId) : Option (List RevisitId) × Store :=
  match s.session? i with
  | none => (none, s)
  | some t => (some t.waiters.toList, s.modifySession i fun t => { t with waiters := .empty })

def retain? (s : Store) (i : SessionId) : Option Unit × Store :=
  match s.session? i with
  | none => (none, s)
  | some _ => (some (), s.modifySession i fun t => { t with outstanding := t.outstanding + 1 })

/-- Drop one outstanding job or waiter, and tell whether none is left. There has to be one. -/
def release? (s : Store) (i : SessionId) : Option Bool × Store :=
  match s.session? i with
  | none => (none, s)
  | some t =>
    if t.outstanding = 0 then (none, s)
    else (some (t.outstanding = 1), s.modifySession i fun t =>
      { t with outstanding := t.outstanding - 1 })

def pendingSessions (s : Store) : Nat := s.sessions.countP (·.result.isPending)

end Store

end CostCTL
