import CostCTL.Checker.Basic
import CostCTL.Kripke.Path
import Mathlib.Data.List.Forall2

/-!
# Searches in single moves

What goes on inside a turn, cut into moves. A search has the records of a store as plain lists, and
a stack of tasks: what the turn has still to do. A move does the first task, or begins a turn if
there is none. Every rule of `Move` says in full when it applies and what it changes, so a property
of searches is kept by all turns if it is kept by each rule.

A search is `Ready` if the records that its next move needs are there.
-/

namespace CostCTL

/-! ### Lists numbered from one -/

namespace Numbered

variable {α : Type}

def get? (l : List α) : Nat → Option α
  | 0 => none
  | i + 1 => l[i]?

def modify (l : List α) (f : α → α) : Nat → List α
  | 0 => l
  | i + 1 => l.modify i f

theorem get?_eq_some_iff {l : List α} {n : Nat} {a : α} :
    get? l n = some a ↔ ∃ i, n = i + 1 ∧ l[i]? = some a := by
  cases n <;> simp [get?]

theorem mem_of_get? {l : List α} {n : Nat} {a : α} (h : get? l n = some a) : a ∈ l := by
  obtain ⟨i, -, hi⟩ := get?_eq_some_iff.mp h
  exact List.mem_of_getElem? hi

theorem exists_get?_of_mem {l : List α} {a : α} (h : a ∈ l) : ∃ n, get? l n = some a := by
  obtain ⟨i, hi⟩ := List.mem_iff_getElem?.mp h
  exact ⟨i + 1, hi⟩

theorem pos_of_get? {l : List α} {n : Nat} {a : α} (h : get? l n = some a) : 0 < n := by
  obtain ⟨i, rfl, -⟩ := get?_eq_some_iff.mp h
  omega

theorem le_of_get? {l : List α} {n : Nat} {a : α} (h : get? l n = some a) : n ≤ l.length := by
  obtain ⟨i, rfl, hi⟩ := get?_eq_some_iff.mp h
  have := (List.getElem?_eq_some_iff.mp hi).1
  omega

theorem get?_ne_none_iff {l : List α} {n : Nat} : get? l n ≠ none ↔ 0 < n ∧ n ≤ l.length := by
  cases n with
  | zero => simp [get?]
  | succ n =>
    rw [get?, ne_eq, List.getElem?_eq_none_iff]
    omega

@[simp] theorem length_modify (l : List α) (f : α → α) (n : Nat) :
    (modify l f n).length = l.length := by
  cases n <;> simp [modify]

theorem get?_modify (l : List α) (f : α → α) (n m : Nat) :
    get? (modify l f n) m = if m = n then (get? l m).map f else get? l m := by
  cases m <;> cases n <;> simp [get?, modify, List.getElem?_modify, eq_comm]
  split <;> simp_all

theorem modify_modify (l : List α) (f h : α → α) (n : Nat) :
    modify (modify l f n) h n = modify l (h ∘ f) n := by
  cases n <;> simp [modify, List.modify_modify_eq]

theorem modify_id (l : List α) (n : Nat) : modify l id n = l := by
  cases n <;> simp [modify]

/-- Only what stands at the number matters. -/
theorem modify_congr {l : List α} {f h : α → α} {n : Nat} {a : α} (hn : get? l n = some a)
    (ha : f a = h a) : modify l f n = modify l h n := by
  obtain ⟨i, rfl, hi⟩ := get?_eq_some_iff.mp hn
  refine List.ext_getElem? fun k => ?_
  by_cases hik : i = k
  · simp [modify, ← hik, hi, ha]
  · simp [modify, hik]

@[simp] theorem modify_concat (l : List α) (a : α) (f : α → α) :
    modify (l ++ [a]) f (l.length + 1) = l ++ [f a] := by
  rw [modify]
  induction l with
  | nil => rfl
  | cons b l ih => simp [ih]

theorem get?_append (l m : List α) (n : Nat) :
    get? (l ++ m) n = if n ≤ l.length then get? l n else m[n - l.length - 1]? := by
  cases n with
  | zero => simp [get?]
  | succ n =>
    simp only [get?, List.getElem?_append]
    split <;> split <;> first | rfl | omega | (congr 1; omega)

theorem get?_append_of_eq_some {l : List α} {n : Nat} {a : α} (h : get? l n = some a)
    (m : List α) : get? (l ++ m) n = some a := by
  rw [get?_append, if_pos (le_of_get? h), h]

@[simp] theorem get?_concat_self (l : List α) (a : α) : get? (l ++ [a]) (l.length + 1) = some a := by
  simp [get?]

theorem get?_concat_eq_some {l : List α} {n : Nat} {a b : α} :
    get? (l ++ [b]) n = some a ↔ get? l n = some a ∨ (n = l.length + 1 ∧ a = b) := by
  rw [get?_append]
  split
  · next h =>
    refine ⟨Or.inl, fun h' => h'.elim id ?_⟩
    omega
  · next h =>
    have absent : get? l n = none := by
      cases n with
      | zero => rfl
      | succ n => simp [get?]; omega
    rw [absent, List.getElem?_singleton]
    constructor
    · intro h'
      split at h'
      · exact .inr ⟨by omega, (Option.some.inj h').symm⟩
      · cases h'
    · rintro (h' | ⟨rfl, rfl⟩)
      · cases h'
      · simp

variable {β : Type} {R : α → β → Prop} {l : List α} {m : List β}

theorem exists_get?_of_forall₂ (h : List.Forall₂ R l m) {n : Nat} {a : α}
    (hn : get? l n = some a) : ∃ b, get? m n = some b ∧ R a b := by
  obtain ⟨i, rfl, hi⟩ := get?_eq_some_iff.mp hn
  obtain ⟨hlt, rfl⟩ := List.getElem?_eq_some_iff.mp hi
  have hlt' : i < m.length := h.length_eq ▸ hlt
  exact ⟨m[i], List.getElem?_eq_getElem hlt', h.get hlt hlt'⟩

theorem forall₂_modify {φ : α → α} {ψ : β → β} (hR : ∀ a b, R a b → R (φ a) (ψ b))
    (h : List.Forall₂ R l m) (n : Nat) : List.Forall₂ R (modify l φ n) (modify m ψ n) := by
  cases n with
  | zero => exact h
  | succ n =>
    show List.Forall₂ R (l.modify n φ) (m.modify n ψ)
    induction h generalizing n with
    | nil => simp
    | cons hab hrest ih =>
      cases n with
      | zero => exact .cons (hR _ _ hab) hrest
      | succ n => exact .cons hab (ih n)

end Numbered

/-! ### Tasks -/

/-- How far a chain of revisits may be followed from a link. -/
def chainBound (link : Option RevisitId) : Nat := link.elim 0 (·.index)

inductive Task where
  | process (j : Job)
  /-- execute an obligation, and resume the link if it is met, along a chain of at most `n` -/
  | execute (n : Nat) (c : Context) (link : Option RevisitId) (o : Obligation)
  /-- what was to be done in the context is done -/
  | resume (n : Nat) (c : Context) (link : Option RevisitId)
  | fail (session : Option SessionId) (e : Counterexample)
  | release (session : Option SessionId)
  | tell (result : SessionResult) (i : RevisitId)

def Reaction.tasks (n : Nat) (c : Context) (link : Option RevisitId) (o : Obligation) :
    Reaction → List Task
  | .proceed => [.execute n c link o]
  | .met => [.resume n c link]
  | .fail e => [.fail c.session e]

def Unfolding.tasks (j : Job) : Unfolding → List Task
  | .pass => [.resume (chainBound j.link) j.toContext j.link]
  | .fail v => [.fail j.session (j.counterexample v)]
  | .obligation o => [.execute (chainBound j.link) j.toContext j.link o]

/-- Check a formula at every successor. -/
def Context.spread (g : Kripke) (c : Context) (link : Option RevisitId) (history : History)
    (f : Formula) : List Job :=
  (g.successors c.node).map fun e => ⟨c.follow history e, f, link⟩

/-- The jobs of an obligation without precondition, unless its windows conflict. -/
def Obligation.jobs? (g : Kripke) (c : Context) (link : Option RevisitId) :
    Obligation → Option (List Job)
  | .here f => some [⟨c, f, link⟩]
  | .successors f => some (c.spread g link c.leave f)
  | .step f => some (c.spread g link ∅ f)
  | .constrain f w =>
    match c.window.merge w with
    | .ok window => some [⟨{ c with window }, f, link⟩]
    | .error _ => none
  | .revisit .. => none

/-- The result of a session without further work. -/
def Session.outcome (t : Session) : SessionResult := t.exceeded.elim .pass .exceeded

/-! ### Searches -/

structure Search where
  order : PendingOrder
  /-- the pending jobs, in the order they came -/
  queue : List Job
  visited : List VisitKey
  revisits : List RevisitEntry
  keys : List SessionKey
  sessions : List Session
  /-- sessions with a result that their waiters do not know yet -/
  resolved : List SessionId
  /-- the waiters that were taken, with the session they waited for -/
  told : List (SessionId × List RevisitId)
  tasks : List Task

namespace Search

def session? (s : Search) (i : SessionId) : Option Session := Numbered.get? s.sessions i.index

def record? (s : Search) (i : RevisitId) : Option RevisitEntry := Numbered.get? s.revisits i.index

def key? (s : Search) (i : SessionId) : Option SessionKey := Numbered.get? s.keys i.index

/-- The result of a session. The requirement's own work has none. -/
def result? (s : Search) : Option SessionId → Option SessionResult
  | none => some .pending
  | some i => (s.session? i).map (·.result)

def Open (s : Search) (session : Option SessionId) : Prop := s.result? session = some .pending

def Settled (s : Search) (session : Option SessionId) : Prop :=
  ∃ result, s.result? session = some result ∧ result ≠ .pending

def withTasks (s : Search) (tasks : List Task) : Search := { s with tasks }

def modifySession (s : Search) (i : SessionId) (f : Session → Session) : Search :=
  { s with sessions := Numbered.modify s.sessions f i.index }

/-- Count `n` jobs or waiters more for a session. -/
def retain (s : Search) (n : Nat) : Option SessionId → Search
  | none => s
  | some i => s.modifySession i fun t => { t with outstanding := t.outstanding + n }

/-- Put jobs on the worklist, on behalf of one session. -/
def push (s : Search) (session : Option SessionId) (jobs : List Job) : Search :=
  { s.retain jobs.length session with queue := s.queue ++ jobs }

def nextRevisit (s : Search) : RevisitId := ⟨s.revisits.length + 1⟩

def suspend (s : Search) (r : Revisit) : Search := { s with revisits := s.revisits ++ [⟨r, false⟩] }

def markResumed (s : Search) (i : RevisitId) : Search :=
  { s with revisits := Numbered.modify s.revisits (fun e => { e with resumed := true }) i.index }

def nextSession (s : Search) : SessionId := ⟨s.keys.length + 1⟩

/-- A new session for the formula of `root`, with one waiter and one job. -/
def openSession (s : Search) (root : Job) (waiter : RevisitId) : Search :=
  { s with
    keys := s.keys ++ [root.sessionKey]
    sessions := s.sessions ++ [⟨.pending, Deque.empty.pushBack waiter, 1, none⟩]
    queue := s.queue ++ [{ root with session := some s.nextSession }] }

/-- Let a revisit wait for a session. -/
def join (s : Search) (i : SessionId) (waiter : RevisitId) : Search :=
  s.modifySession i fun t => { t with waiters := t.waiters.pushBack waiter }

/-- Take the waiters of a session. -/
def dismiss (s : Search) (i : SessionId) : Search :=
  s.modifySession i fun t => { t with waiters := .empty }

/-- Remember a branch that left its window, if it is the first one. -/
def exceed (s : Search) (i : SessionId) (x : Counterexample) : Search :=
  s.modifySession i fun t => { t with exceeded := t.exceeded.or (some x) }

/-- Count one job or waiter less for a session. -/
def release (s : Search) (i : SessionId) : Search :=
  s.modifySession i fun t => { t with outstanding := t.outstanding - 1 }

/-- Give a session its result, and have its waiters told. -/
def complete (s : Search) (i : SessionId) (result : SessionResult) : Search :=
  { s.modifySession i fun t => { t with result } with resolved := s.resolved ++ [i] }

/-- The next job is `j`, and `rest` stays. -/
def Takes (s : Search) (j : Job) (rest : List Job) : Prop :=
  match s.order with
  | .depthFirst => s.queue = rest ++ [j]
  | .breadthFirst => s.queue = j :: rest

theorem session?_modifySession (s : Search) (i k : SessionId) (f : Session → Session) :
    (s.modifySession i f).session? k = if k = i then (s.session? k).map f else s.session? k := by
  have h : k.index = i.index ↔ k = i := by cases k; cases i; simp
  simp only [modifySession, session?, Numbered.get?_modify, h]

theorem record?_suspend {s : Search} {r : Revisit} {i : RevisitId} {e : RevisitEntry} :
    (s.suspend r).record? i = some e ↔
      s.record? i = some e ∨ (i = s.nextRevisit ∧ e = ⟨r, false⟩) := by
  have hi : i = s.nextRevisit ↔ i.index = s.revisits.length + 1 := by cases i; simp [nextRevisit]
  rw [record?, suspend, Numbered.get?_concat_eq_some, record?, hi]

theorem record?_markResumed (s : Search) (i k : RevisitId) :
    (s.markResumed i).record? k =
      if k = i then (s.record? k).map fun e => { e with resumed := true } else s.record? k := by
  have h : k.index = i.index ↔ k = i := by cases k; cases i; simp
  simp only [markResumed, record?, Numbered.get?_modify, h]

theorem markResumed_of_resumed {s : Search} {i : RevisitId} {e : RevisitEntry}
    (h : s.record? i = some e) (hr : e.resumed = true) : s.markResumed i = s := by
  have he : ({ e with resumed := true } : RevisitEntry) = id e := by rw [← hr]; rfl
  rw [markResumed, Numbered.modify_congr h he, Numbered.modify_id]

/-- A change that leaves the result of a session alone leaves all results alone. -/
theorem result?_modifySession (s : Search) (i : SessionId) {f : Session → Session}
    (hf : ∀ t, (f t).result = t.result) (k : Option SessionId) :
    (s.modifySession i f).result? k = s.result? k := by
  cases k with
  | none => rfl
  | some k =>
    simp only [result?, session?_modifySession]
    split
    · cases s.session? k <;> simp [hf]
    · rfl

@[simp] theorem result?_retain (s : Search) (n : Nat) (session k : Option SessionId) :
    (s.retain n session).result? k = s.result? k := by
  cases session with
  | none => rfl
  | some i => exact result?_modifySession s i (by intro t; rfl) k

theorem order_retain (s : Search) (n : Nat) (session : Option SessionId) :
    (s.retain n session).order = s.order := by
  cases session <;> rfl

theorem visited_retain (s : Search) (n : Nat) (session : Option SessionId) :
    (s.retain n session).visited = s.visited := by
  cases session <;> rfl

theorem revisits_retain (s : Search) (n : Nat) (session : Option SessionId) :
    (s.retain n session).revisits = s.revisits := by
  cases session <;> rfl

theorem keys_retain (s : Search) (n : Nat) (session : Option SessionId) :
    (s.retain n session).keys = s.keys := by
  cases session <;> rfl

theorem queue_retain (s : Search) (n : Nat) (session : Option SessionId) :
    (s.retain n session).queue = s.queue := by
  cases session <;> rfl

theorem resolved_retain (s : Search) (n : Nat) (session : Option SessionId) :
    (s.retain n session).resolved = s.resolved := by
  cases session <;> rfl

theorem told_retain (s : Search) (n : Nat) (session : Option SessionId) :
    (s.retain n session).told = s.told := by
  cases session <;> rfl

@[simp] theorem result?_join (s : Search) (i : SessionId) (waiter : RevisitId)
    (k : Option SessionId) : (s.join i waiter).result? k = s.result? k :=
  result?_modifySession s i (by intro t; rfl) k

@[simp] theorem result?_dismiss (s : Search) (i : SessionId) (k : Option SessionId) :
    (s.dismiss i).result? k = s.result? k :=
  result?_modifySession s i (by intro t; rfl) k

@[simp] theorem result?_exceed (s : Search) (i : SessionId) (x : Counterexample)
    (k : Option SessionId) : (s.exceed i x).result? k = s.result? k :=
  result?_modifySession s i (by intro t; rfl) k

@[simp] theorem result?_release (s : Search) (i : SessionId) (k : Option SessionId) :
    (s.release i).result? k = s.result? k :=
  result?_modifySession s i (by intro t; rfl) k

@[simp] theorem result?_push (s : Search) (session : Option SessionId) (jobs : List Job)
    (k : Option SessionId) : (s.push session jobs).result? k = s.result? k :=
  result?_retain s jobs.length session k

theorem push_push (s : Search) (session : Option SessionId) (j : Job) (jobs : List Job) :
    (s.push session [j]).push session jobs = s.push session (j :: jobs) := by
  cases session with
  | none => simp [push, retain]
  | some i =>
    simp only [push, retain, modifySession, Numbered.modify_modify, List.append_assoc,
      List.singleton_append, List.length_cons, List.length_nil]
    congr 2
    funext t
    simp only [Function.comp, Session.mk.injEq, true_and, and_true]
    omega

theorem session?_openSession {s : Search} {i : SessionId} {t : Session} (h : s.session? i = some t)
    (root : Job) (waiter : RevisitId) : (s.openSession root waiter).session? i = some t :=
  Numbered.get?_append_of_eq_some h _

theorem result?_openSession {s : Search} {k : Option SessionId} {result : SessionResult}
    (h : s.result? k = some result) (root : Job) (waiter : RevisitId) :
    (s.openSession root waiter).result? k = some result := by
  cases k with
  | none => exact h
  | some k =>
    obtain ⟨t, ht, rfl⟩ := Option.map_eq_some_iff.mp h
    rw [result?, session?_openSession ht, Option.map_some]

/-- A new session has its first job pushed. -/
theorem push_eq_openSession {s : Search} (h : s.sessions.length = s.keys.length) (root : Job)
    (waiter : RevisitId) :
    ({ s with
      keys := s.keys ++ [root.sessionKey]
      sessions := s.sessions ++ [⟨.pending, Deque.empty.pushBack waiter, 0, none⟩] } : Search).push
      (some s.nextSession) [{ root with session := some s.nextSession }] =
      s.openSession root waiter := by
  simp [push, retain, modifySession, nextSession, openSession, ← h]

theorem withTasks_push (s : Search) (session : Option SessionId) (jobs : List Job)
    (ts : List Task) : (s.push session jobs).withTasks ts = (s.withTasks ts).push session jobs := by
  cases session <;> rfl

theorem withTasks_retain (s : Search) (n : Nat) (session : Option SessionId) (ts : List Task) :
    (s.retain n session).withTasks ts = (s.withTasks ts).retain n session := by
  cases session <;> rfl

theorem push_nil (s : Search) (session : Option SessionId) : s.push session [] = s := by
  cases session with
  | none => simp [push, retain]
  | some i =>
    have h : Numbered.modify s.sessions
        (fun t => { t with outstanding := t.outstanding + 0 }) i.index = s.sessions :=
      Numbered.modify_id s.sessions i.index
    simp only [push, retain, modifySession, List.length_nil, List.append_nil, h]

/-- Nothing is left to do. -/
def Idle (s : Search) : Prop := s.tasks = [] ∧ s.resolved = [] ∧ s.queue = []

/-- The requirement's first jobs. -/
def seed (s : Search) (g : Kripke) (f : Formula) : Search :=
  { s with queue := s.queue ++ g.initial.toList.map (Job.root · f) }

end Search

/-- One move of a search. -/
inductive Move (g : Kripke) : Search → Search → Prop where
  | notify {s : Search} {i : SessionId} {rest : List SessionId} {t : Session}
      (ht : s.tasks = []) (hr : s.resolved = i :: rest) (hi : s.session? i = some t) :
      Move g s { s.dismiss i with
        resolved := rest
        told := s.told ++ [(i, t.waiters.toList)]
        tasks := t.waiters.toList.map (.tell t.result) }
  | take {s : Search} {j : Job} {rest : List Job}
      (ht : s.tasks = []) (hr : s.resolved = []) (hq : s.Takes j rest) :
      Move g s { s with queue := rest, tasks := [.process j] }
  | stale {s : Search} {j : Job} {ts : List Task}
      (ht : s.tasks = .process j :: ts) (hs : s.Settled j.session) :
      Move g s (s.withTasks (.release j.session :: ts))
  | repeated {s : Search} {j : Job} {ts : List Task}
      (ht : s.tasks = .process j :: ts) (ho : s.Open j.session) (hv : j.visitKey ∈ s.visited) :
      Move g s (s.withTasks (.release j.session :: ts))
  | visit {s : Search} {j : Job} {ts : List Task} {node : Node} {u : Unfolding}
      (ht : s.tasks = .process j :: ts) (ho : s.Open j.session) (hv : j.visitKey ∉ s.visited)
      (hn : g.node? j.node = some node) (hu : j.formula.unfold (j.position node) = .ok u) :
      Move g s { s with
        visited := s.visited ++ [j.visitKey]
        tasks := u.tasks j ++ .release j.session :: ts }
  | spawn {s : Search} {n : Nat} {c : Context} {link : Option RevisitId} {o : Obligation}
      {ts : List Task} {jobs : List Job}
      (ht : s.tasks = .execute n c link o :: ts) (hj : o.jobs? g c link = some jobs) :
      Move g s ((s.push c.session jobs).withTasks ts)
  | judge {s : Search} {n : Nat} {c : Context} {link : Option RevisitId} {o : Obligation}
      {p : Precondition} {ts : List Task} {node : Node} {judgement : Judgement}
      (ht : s.tasks = .execute n c link (.revisit o p) :: ts) (hp : p.formula.isState = true)
      (hn : g.node? c.node = some node)
      (hj : p.formula.judge (c.position node) = .ok judgement) :
      Move g s (s.withTasks ((p.react c (.ofJudgement c judgement)).tasks n c link o ++ ts))
  | require {s : Search} {n : Nat} {c : Context} {link : Option RevisitId} {o : Obligation}
      {p : Precondition} {ts : List Task}
      (ht : s.tasks = .execute n c link (.revisit o p) :: ts) (hp : p.formula.isState = false)
      (hk : p.kind = .required) :
      Move g s (((s.suspend ⟨c, o, p, link⟩).push c.session
        [c.demand p.formula s.nextRevisit]).withTasks ts)
  | inquire {s : Search} {n : Nat} {c : Context} {link : Option RevisitId} {o : Obligation}
      {p : Precondition} {ts : List Task}
      (ht : s.tasks = .execute n c link (.revisit o p) :: ts) (hp : p.formula.isState = false)
      (hk : p.kind ≠ .required) (hkey : (c.inquiry p.formula).sessionKey ∉ s.keys) :
      Move g s ((((s.suspend ⟨c, o, p, link⟩).openSession (c.inquiry p.formula)
        s.nextRevisit).retain 1 c.session).withTasks ts)
  | join {s : Search} {n : Nat} {c : Context} {link : Option RevisitId} {o : Obligation}
      {p : Precondition} {ts : List Task} {i : SessionId}
      (ht : s.tasks = .execute n c link (.revisit o p) :: ts) (hp : p.formula.isState = false)
      (hk : p.kind ≠ .required) (hkey : s.key? i = some (c.inquiry p.formula).sessionKey)
      (hi : s.Open (some i)) :
      Move g s ((((s.suspend ⟨c, o, p, link⟩).join i s.nextRevisit).retain 1
        c.session).withTasks ts)
  | answerLate {s : Search} {n : Nat} {c : Context} {link : Option RevisitId} {o : Obligation}
      {p : Precondition} {ts : List Task} {i : SessionId}
      (ht : s.tasks = .execute n c link (.revisit o p) :: ts) (hp : p.formula.isState = false)
      (hk : p.kind ≠ .required) (hkey : s.key? i = some (c.inquiry p.formula).sessionKey)
      (hi : s.Settled (some i)) (hs : s.Settled c.session) :
      Move g s ((s.suspend ⟨c, o, p, link⟩).withTasks ts)
  | answer {s : Search} {n : Nat} {c : Context} {link : Option RevisitId} {o : Obligation}
      {p : Precondition} {ts : List Task} {i : SessionId} {t : Session} {finding : Finding}
      (ht : s.tasks = .execute n c link (.revisit o p) :: ts) (hp : p.formula.isState = false)
      (hk : p.kind ≠ .required) (hkey : s.key? i = some (c.inquiry p.formula).sessionKey)
      (hi : s.session? i = some t) (hf : Finding.ofResult? t.result = some finding)
      (ho : s.Open c.session) :
      Move g s ((s.suspend ⟨c, o, p, link⟩).withTasks
        ((p.react c finding).tasks n c link o ++ ts))
  | resumeNone {s : Search} {n : Nat} {c : Context} {ts : List Task}
      (ht : s.tasks = .resume n c none :: ts) : Move g s (s.withTasks ts)
  | resumeAgain {s : Search} {n : Nat} {c : Context} {i : RevisitId} {ts : List Task}
      {e : RevisitEntry}
      (ht : s.tasks = .resume (n + 1) c (some i) :: ts) (hi : s.record? i = some e)
      (hr : e.resumed = true) : Move g s (s.withTasks ts)
  | resumeLate {s : Search} {n : Nat} {c : Context} {i : RevisitId} {ts : List Task}
      {e : RevisitEntry}
      (ht : s.tasks = .resume (n + 1) c (some i) :: ts) (hi : s.record? i = some e)
      (hr : e.resumed = false) (hs : s.Settled e.revisit.session) :
      Move g s ((s.markResumed i).withTasks ts)
  | resume {s : Search} {n : Nat} {c : Context} {i : RevisitId} {ts : List Task}
      {e : RevisitEntry}
      (ht : s.tasks = .resume (n + 1) c (some i) :: ts) (hi : s.record? i = some e)
      (hr : e.resumed = false) (ho : s.Open e.revisit.session) :
      Move g s ((s.markResumed i).withTasks
        (.execute n e.revisit.toContext e.revisit.parent e.revisit.resume :: ts))
  | tellLate {s : Search} {result : SessionResult} {i : RevisitId} {ts : List Task}
      {e : RevisitEntry}
      (ht : s.tasks = .tell result i :: ts) (hi : s.record? i = some e)
      (hs : result = .pending ∨ s.Settled e.revisit.session) :
      Move g s (s.withTasks (.release e.revisit.session :: ts))
  | tell {s : Search} {result : SessionResult} {i : RevisitId} {ts : List Task}
      {e : RevisitEntry} {finding : Finding}
      (ht : s.tasks = .tell result i :: ts) (hi : s.record? i = some e)
      (hf : Finding.ofResult? result = some finding) (ho : s.Open e.revisit.session) :
      Move g s (s.withTasks
        ((e.revisit.precondition.react e.revisit.toContext finding).tasks
          (chainBound e.revisit.parent) e.revisit.toContext e.revisit.parent e.revisit.resume
            ++ .release e.revisit.session :: ts))
  | exceed {s : Search} {i : SessionId} {x : Counterexample} {ts : List Task}
      (ht : s.tasks = .fail (some i) x :: ts) (hx : x.violation.isBudget = true) :
      Move g s ((s.exceed i x).withTasks ts)
  | decide {s : Search} {i : SessionId} {x : Counterexample} {ts : List Task}
      (ht : s.tasks = .fail (some i) x :: ts) (hx : x.violation.isBudget = false)
      (hi : s.Open (some i)) : Move g s ((s.complete i (.fail x)).withTasks ts)
  | decideLate {s : Search} {i : SessionId} {x : Counterexample} {ts : List Task}
      (ht : s.tasks = .fail (some i) x :: ts) (hx : x.violation.isBudget = false)
      (hi : s.Settled (some i)) : Move g s (s.withTasks ts)
  | releaseNone {s : Search} {ts : List Task} (ht : s.tasks = .release none :: ts) :
      Move g s (s.withTasks ts)
  | release {s : Search} {i : SessionId} {ts : List Task} {t : Session}
      (ht : s.tasks = .release (some i) :: ts) (hi : s.session? i = some t)
      (hn : t.outstanding ≠ 0) (hl : t.outstanding ≠ 1 ∨ t.result ≠ .pending) :
      Move g s ((s.release i).withTasks ts)
  | finish {s : Search} {i : SessionId} {ts : List Task} {t : Session}
      (ht : s.tasks = .release (some i) :: ts) (hi : s.session? i = some t)
      (hn : t.outstanding = 1) (hr : t.result = .pending) :
      Move g s (((s.release i).complete i t.outcome).withTasks ts)

/-- Any number of moves. -/
inductive Moves (g : Kripke) : Search → Search → Prop where
  | refl (s : Search) : Moves g s s
  | step {s t u : Search} (first : Move g s t) (rest : Moves g t u) : Moves g s u

theorem Moves.single {g : Kripke} {s t : Search} (h : Move g s t) : Moves g s t :=
  .step h (.refl t)

theorem Moves.trans {g : Kripke} {s t u : Search} (h : Moves g s t) (h' : Moves g t u) :
    Moves g s u := by
  induction h with
  | refl => exact h'
  | step first _ ih => exact .step first (ih h')

/-- Moves that do tasks, one after the other. No turn begins on the way. -/
inductive Search.Performs (g : Kripke) : Search → List Task → Search → Prop where
  | nil (s : Search) : Performs g s [] s
  | cons {s t u : Search} {k : Task} {ts l : List Task} (ht : s.tasks = k :: ts)
      (first : Move g s t) (rest : Performs g t l u) : Performs g s (k :: l) u

namespace Search.Performs

variable {g : Kripke} {s t u : Search} {l m : List Task}

theorem append (h : s.Performs g l t) (h' : t.Performs g m u) : s.Performs g (l ++ m) u := by
  induction h with
  | nil => exact h'
  | cons ht first _ ih => exact .cons ht first (ih h')

theorem moves (h : s.Performs g l t) : Moves g s t := by
  induction h with
  | nil s => exact .refl s
  | cons _ first _ ih => exact .step first ih

end Search.Performs

/-- The records that the task needs are there. -/
def Task.Ready (g : Kripke) (s : Search) : Task → Prop
  | .process j => j.node.index < g.size ∧ s.result? j.session ≠ none
  | .execute _ c _ _ => c.node.index < g.size ∧ s.result? c.session ≠ none
  | .resume n _ link => ∀ i, link = some i →
    0 < n ∧ ∃ e, s.record? i = some e ∧ s.result? e.revisit.session ≠ none
  | .fail session _ => s.result? session ≠ none
  | .release session => ∀ i, session = some i → ∃ t, s.session? i = some t ∧ t.outstanding ≠ 0
  | .tell _ i => ∃ e, s.record? i = some e ∧ s.result? e.revisit.session ≠ none

def Search.Ready (g : Kripke) (s : Search) : Prop :=
  match s.tasks with
  | [] => ∀ i ∈ s.resolved.head?, s.session? i ≠ none
  | t :: _ => t.Ready g s

/-- The search halts instead of the next move. -/
inductive Search.Halts (g : Kripke) : Search → Halt → Prop where
  | refuted {s : Search} {x : Counterexample} {ts : List Task}
      (ht : s.tasks = .fail none x :: ts) : Halts g s (.refuted x)
  | conflict {s : Search} {n : Nat} {c : Context} {link : Option RevisitId} {f : Formula}
      {w : Window} {ts : List Task} {e : Conflict}
      (ht : s.tasks = .execute n c link (.constrain f w) :: ts)
      (he : c.window.merge w = .error e) : Halts g s (.stop (.error (.conflict e)))
  | unfold {s : Search} {j : Job} {ts : List Task} {node : Node} {e : AtomError}
      (ht : s.tasks = .process j :: ts) (hn : g.node? j.node = some node)
      (he : j.formula.unfold (j.position node) = .error (.atom e)) :
      Halts g s (.stop (.error (.malformed (.atom e))))
  | judge {s : Search} {n : Nat} {c : Context} {link : Option RevisitId} {o : Obligation}
      {p : Precondition} {ts : List Task} {node : Node} {e : AtomError}
      (ht : s.tasks = .execute n c link (.revisit o p) :: ts) (hn : g.node? c.node = some node)
      (he : p.formula.judge (c.position node) = .error (.atom e)) :
      Halts g s (.stop (.error (.malformed (.atom e))))

end CostCTL
