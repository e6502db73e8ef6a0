import CostCTL.Kripke.Ringlet
import CostCTL.Store

/-!
# Notices

What the checker tells about its work. A notice has a level, and a reader who asks for a level
gets the notices of that level and of the more severe ones.
-/

namespace CostCTL

inductive Level where
  | warn | info | debug | trace
  deriving DecidableEq, Repr

namespace Level

def text : Level → String
  | warn => "WARN"
  | info => "INFO"
  | debug => "DEBUG"
  | trace => "TRACE"

/-- Larger for less severe levels. -/
def rank : Level → Nat
  | warn => 0
  | info => 1
  | debug => 2
  | trace => 3

end Level

inductive Notice where
  | materialized (ringlets nodes reads writes : Nat)
  | checking (index : Nat) (requirement : Formula) (starts : Nat)
  | universalForm (f : Formula)
  | violated (index : Nat) (c : Counterexample)
  | allHold (requirements : Nat) (stats : Stats)
  | progress (processed pending : Nat) (stats : Stats)
  | staleJob (f : Formula) (node : NodeId)
  | duplicateJob (f : Formula) (node : NodeId)
  | unfolding (f : Formula) (node : NodeId) (inCycle : Bool) (session : Option SessionId)
  | sessionOpened (s : SessionId) (f : Formula) (node : NodeId)
  | sessionJoined (s : SessionId) (r : RevisitId)
  | sessionPassed (s : SessionId)
  | sessionFailed (s : SessionId) (v : Violation)
  | sessionDeferred (s : SessionId) (v : Violation)
  | sessionExceeded (s : SessionId) (v : Violation)
  | sessionSettled (s : SessionId)
  | resuming (r : RevisitId) (node : NodeId)
  | alreadyResumed (r : RevisitId)
  | ownerSettled (r : RevisitId)

namespace Notice

def level : Notice → Level
  | checking .. | violated .. | allHold .. | progress .. => .info
  | materialized .. | universalForm .. | unfolding .. | sessionOpened .. | sessionPassed ..
  | sessionFailed .. | sessionExceeded .. => .debug
  | staleJob .. | duplicateJob .. | sessionJoined .. | sessionDeferred .. | sessionSettled ..
  | resuming .. | alreadyResumed .. | ownerSettled .. => .trace

def sessionText : Option SessionId → String
  | none => "None"
  | some s => "Some(SessionId(" ++ toString s.index ++ "))"

def message : Notice → String
  | materialized ringlets nodes reads writes =>
    "materialize: " ++ toString ringlets ++ " ringlets -> " ++ toString nodes ++ " nodes ("
      ++ toString reads ++ " read, " ++ toString writes ++ " write)"
  | checking index requirement starts =>
    "Checking requirement #" ++ toString index ++ " `" ++ requirement.text ++ "` from "
      ++ toString starts ++ " initial node(s)"
  | universalForm f => "Rewritten to `" ++ f.text ++ "`"
  | violated index c => "Requirement #" ++ toString index ++ " is violated: " ++ c.text
  | allHold requirements stats =>
    "All " ++ toString requirements ++ " requirement(s) hold: " ++ stats.text
  | progress processed pending stats =>
    "Processed " ++ toString processed ++ " jobs, " ++ toString pending
      ++ " session(s) pending: " ++ stats.text
  | staleJob f node =>
    "process: stale `" ++ f.text ++ "` at " ++ node.text ++ " in resolved session"
  | duplicateJob f node => "process: duplicate `" ++ f.text ++ "` at " ++ node.text
  | unfolding f node inCycle session =>
    "decompose(`" ++ f.text ++ "` at " ++ node.text ++ ", in_cycle = " ++ toString inCycle
      ++ ", session = " ++ sessionText session ++ ")"
  | sessionOpened s f node =>
    "session " ++ s.text ++ " opened for `" ++ f.text ++ "` at " ++ node.text
  | sessionJoined s r => "session " ++ s.text ++ " joined by " ++ r.text
  | sessionPassed s => "session " ++ s.text ++ " passed"
  | sessionFailed s v => "session " ++ s.text ++ " failed: " ++ v.text
  | sessionDeferred s v => "session " ++ s.text ++ " deferred: " ++ v.text
  | sessionExceeded s v => "session " ++ s.text ++ " exceeded its window: " ++ v.text
  | sessionSettled s => "session " ++ s.text ++ " already resolved"
  | resuming r node => "exhaust: resuming " ++ r.text ++ " at " ++ node.text
  | alreadyResumed r => "exhaust: " ++ r.text ++ " already resumed"
  | ownerSettled r => "resume_waiter: owner of " ++ r.text ++ " already resolved"

def line (n : Notice) : String := n.level.text ++ " " ++ n.message

/-- The lines for a reader who asked for a level. -/
def lines (level : Level) (notices : List Notice) : List String :=
  (notices.filter fun n => n.level.rank ≤ level.rank).map line

end Notice

/-- What is told of the graph that was made from ringlets, once nothing is wrong with them. -/
def Ringlet.notices (ringlets : List Ringlet) : Except GraphError Kripke → List Notice
  | .error (.deadEnd _) | .error (.unknownInitial _) => []
  | _ =>
    let d := Draft.ofRinglets ringlets
    [.materialized ringlets.length d.builder.size d.reads.size d.writes.size]

end CostCTL
