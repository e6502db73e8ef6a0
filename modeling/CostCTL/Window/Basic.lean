import CostCTL.Window.Interval

/-!
# Windows

A window is a set of statements on the cost accumulated since a requirement started. It is
satisfied when all of its statements are.
-/

namespace CostCTL

structure Window where
  statements : SortedSet Statement
  deriving DecidableEq

/-- The statements of a window on one symbol that no amount satisfies together. -/
structure Conflict where
  symbol : Symbol
  statements : List Statement
  deriving DecidableEq, Repr

def Conflict.message (e : Conflict) : String :=
  "constraints on " ++ e.symbol.text ++ " admit no value: "
    ++ ", ".intercalate (e.statements.map Statement.text)

namespace Window

def empty : Window := ⟨∅⟩

instance : EmptyCollection Window := ⟨empty⟩
instance : Inhabited Window := ⟨empty⟩

def ofList (l : List Statement) : Window := ⟨.ofList l⟩

def toList (w : Window) : List Statement := w.statements.toList

def isEmpty (w : Window) : Bool := w.toList.isEmpty

def insert (w : Window) (s : Statement) : Window := ⟨w.statements.insert s⟩

def union (v w : Window) : Window := ⟨v.statements ∪ w.statements⟩

def text (w : Window) : String := ", ".intercalate (w.toList.map Statement.text)

/-- Every bound is given in a unit of its own symbol. -/
def validate (w : Window) : Except UnitMismatch Unit := w.toList.forM Statement.validate

/-- The statements on one symbol, in order. -/
def on (w : Window) (s : Symbol) : List Statement := w.toList.filter (·.symbol = s)

/-- The amounts that all statements on the symbol admit. -/
def admissible (w : Window) (s : Symbol) : Interval :=
  (w.on s).foldl (fun i t => i.intersect t.interval) .full

/-- Every symbol is left some amount. The first symbol that is not is reported. -/
def reconcile (w : Window) : Except Conflict Unit :=
  Symbol.all.forM fun s => if (w.admissible s).isEmpty then .error ⟨s, w.on s⟩ else .ok ()

/-- Both windows at once, if they can be reconciled. -/
def merge (v w : Window) : Except Conflict Window := do
  let both := v.union w
  both.reconcile
  return both

/-- The first violated statement decides; without one, the first that is not satisfied yet. -/
def verdictOf (c : Cost) : List Statement → Verdict
  | [] => .satisfied
  | s :: l =>
    match s.verdict c, verdictOf c l with
    | .violated t, _ => .violated t
    | _, .violated t => .violated t
    | .notYet t, _ => .notYet t
    | .satisfied, v => v

def verdict (w : Window) (c : Cost) : Verdict := verdictOf c w.toList

/-- The window is not reached yet: a larger cost may satisfy it. -/
def isAhead (w : Window) (c : Cost) : Bool :=
  match w.verdict c with
  | .notYet _ => true
  | _ => false

/-! ### Windows as sets -/

variable {u v w : Window} {x : Statement}

theorem ext_mem (h : ∀ x, x ∈ v.toList ↔ x ∈ w.toList) : v = w := by
  obtain ⟨s⟩ := v
  obtain ⟨t⟩ := w
  exact congrArg Window.mk (SortedSet.ext_mem h)

theorem not_mem_empty (x : Statement) : x ∉ (∅ : Window).toList := SortedSet.not_mem_empty x

theorem mem_union : x ∈ (v.union w).toList ↔ x ∈ v.toList ∨ x ∈ w.toList := SortedSet.mem_union

theorem union_empty_left (w : Window) : (∅ : Window).union w = w :=
  ext_mem fun x => mem_union.trans (or_iff_right (not_mem_empty x))

theorem union_empty_right (w : Window) : w.union ∅ = w :=
  ext_mem fun x => mem_union.trans (or_iff_left (not_mem_empty x))

theorem merge_eq_ok_iff : v.merge w = .ok u ↔ u = v.union w ∧ (v.union w).reconcile = .ok () := by
  cases h : (v.union w).reconcile with
  | error e => simp [merge, h, bind, Except.bind]
  | ok => simp [merge, h, bind, Except.bind, pure, Except.pure, eq_comm]

end Window

end CostCTL
