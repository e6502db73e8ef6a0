import CostCTL.Proofs.Valid
import Mathlib.Data.List.Flatten
import Mathlib.Data.List.Perm.Basic

/-!
# The accounts of sessions

What is outstanding for a session is what will release it: jobs on the worklist, revisits that wait
for another session, and tasks of the turn (`Search.Accounts.balance`). A session without a result
has something outstanding, so it is decided as soon as nothing is. A waiter is taken once, when the
session that it waits for has its result.
-/

namespace CostCTL

variable {g : Kripke} {s t : Search}

namespace Search

/-- The session that a revisit belongs to. -/
def owner? (s : Search) (w : RevisitId) : Option SessionId :=
  (s.record? w).bind (·.revisit.session)

/-- The revisits that wait for a session, by the order of the sessions. -/
def parked (s : Search) : List RevisitId := s.sessions.flatMap (·.waiters.toList)

/-- The revisits that waited for a session and were told its result. -/
def heard (s : Search) : List RevisitId := s.told.flatMap (·.2)

/-- The jobs and the waiters of a session. -/
def work (s : Search) (i : SessionId) : Nat :=
  s.queue.countP (·.session = some i) + s.parked.countP (s.owner? · = some i)

end Search

/-- The session that the task is going to release. -/
def Task.releases (s : Search) : Task → Option SessionId
  | .process j => j.session
  | .release session => session
  | .tell _ w => s.owner? w
  | _ => none

namespace Search

/-- The tasks that are going to release a session. -/
def owed (s : Search) (i : SessionId) : Nat := s.tasks.countP (·.releases s = some i)

structure Accounts (s : Search) : Prop where
  balance : ∀ i t, s.session? i = some t → t.outstanding = s.work i + s.owed i
  busy : ∀ i t, s.session? i = some t → t.result = .pending → t.outstanding ≠ 0
  /-- a session with a result has no waiters, unless they are about to be told -/
  unheard : ∀ i t, s.session? i = some t → t.result ≠ .pending → t.waiters.toList ≠ [] →
    i ∈ s.resolved
  /-- no waiter is parked twice, or taken twice, or parked again -/
  once : (s.parked ++ s.heard).Nodup
  /-- waiters are taken from a session with a result, which is what they waited for -/
  answered : ∀ p ∈ s.told, s.Settled (some p.1) ∧ ∀ w ∈ p.2, s.Waits p.1 w
  /-- all waiters of a session are taken at once -/
  emptied : ∀ p ∈ s.told, ∀ t, s.session? p.1 = some t → t.waiters.toList = []

theorem Accounts.heard_on_record (h : s.Accounts) {w : RevisitId} (hw : w ∈ s.heard) :
    s.record? w ≠ none := by
  obtain ⟨p, hp, hw⟩ := List.mem_flatMap.mp hw
  obtain ⟨e, he, -⟩ := (h.answered p hp).2 w hw
  simp [he]

/-- What was taken stays taken, by the same waiters. -/
theorem Accounts.answered_extends (h : s.Accounts) (he : s.Extends t) {p : SessionId × List RevisitId}
    (hp : p ∈ s.told) : t.Settled (some p.1) ∧ ∀ w ∈ p.2, t.Waits p.1 w :=
  ⟨he.settled (h.answered p hp).1, fun w hw => ((h.answered p hp).2 w hw).extends he⟩

/-! ### Waiters after a change of one session -/

theorem flatMap_modify_perm {α β : Type} {l : List α} {a : α} {i : Nat} (h : l[i]? = some a)
    (f : α → α) (w : α → List β) :
    ((l.modify i f).flatMap w ++ w a).Perm (l.flatMap w ++ w (f a)) := by
  induction l generalizing i with
  | nil => simp at h
  | cons b l ih =>
    cases i with
    | zero =>
      obtain rfl : b = a := by simpa using h
      simp only [List.modify_zero_cons, List.flatMap_cons]
      refine List.perm_append_comm.trans ?_
      rw [List.append_assoc]
      exact List.perm_append_comm.append_left _
    | succ i =>
      simp only [List.modify_succ_cons, List.flatMap_cons, List.append_assoc]
      exact (ih (by simpa using h)).append_left _

theorem parked_modifySession {i : SessionId} {t : Session} (h : s.session? i = some t)
    (f : Session → Session) :
    ((s.modifySession i f).parked ++ t.waiters.toList).Perm
      (s.parked ++ (f t).waiters.toList) := by
  obtain ⟨n, hn, ht⟩ := Numbered.get?_eq_some_iff.mp h
  rw [parked, modifySession, hn]
  exact flatMap_modify_perm ht f (·.waiters.toList)

theorem flatMap_modify_eq {α β : Type} {f : α → α} {w : α → List β} (hf : ∀ a, w (f a) = w a)
    (l : List α) (i : Nat) : (l.modify i f).flatMap w = l.flatMap w := by
  induction l generalizing i with
  | nil => simp
  | cons b l ih => cases i <;> simp [hf, ih]

/-- A change that keeps all waiters keeps what is parked. -/
theorem parked_modifySession_eq (s : Search) (i : SessionId) {f : Session → Session}
    (hf : ∀ t, (f t).waiters = t.waiters) : (s.modifySession i f).parked = s.parked := by
  rw [parked, modifySession]
  cases i.index with
  | zero => rfl
  | succ n => exact flatMap_modify_eq (fun t => by rw [hf t]) _ _

@[simp] theorem parked_retain (s : Search) (n : Nat) (session : Option SessionId) :
    (s.retain n session).parked = s.parked := by
  cases session with
  | none => rfl
  | some i => exact s.parked_modifySession_eq i (by intro t; rfl)

@[simp] theorem parked_push (s : Search) (session : Option SessionId) (jobs : List Job) :
    (s.push session jobs).parked = s.parked := s.parked_retain jobs.length session

theorem parked_openSession (s : Search) (root : Job) (w : RevisitId) :
    (s.openSession root w).parked = s.parked ++ [w] := by
  simp [parked, openSession]

/-- Taking the waiters of a session. -/
theorem parked_dismiss {i : SessionId} {t : Session} (h : s.session? i = some t) :
    ((s.dismiss i).parked ++ t.waiters.toList).Perm s.parked := by
  have := parked_modifySession h fun t => { t with waiters := .empty }
  rwa [Deque.toList_empty, List.append_nil] at this

theorem parked_join {i : SessionId} {t : Session} (h : s.session? i = some t) (w : RevisitId) :
    (s.join i w).parked.Perm (s.parked ++ [w]) := by
  have := parked_modifySession h fun t => { t with waiters := t.waiters.pushBack w }
  rw [Deque.toList_pushBack] at this
  refine (List.perm_append_right_iff t.waiters.toList).mp (this.trans ?_)
  rw [List.append_assoc]
  exact List.perm_append_comm.append_left _

/-! ### Owners -/

/-- What is parked is on record. -/
theorem Valid.parked_on_record (h : s.Valid g) {w : RevisitId} (hw : w ∈ s.parked) :
    s.record? w ≠ none := by
  obtain ⟨t, ht, hw⟩ := List.mem_flatMap.mp hw
  obtain ⟨n, hn⟩ := Numbered.exists_get?_of_mem ht
  obtain ⟨e, he, -⟩ := h.waiters ⟨n⟩ t hn w hw
  simp [he]

theorem Extends.owner?_eq (h : s.Extends t) {w : RevisitId} (hw : s.record? w ≠ none) :
    t.owner? w = s.owner? w := by
  obtain ⟨e, he⟩ := Option.ne_none_iff_exists'.mp hw
  obtain ⟨b, hb, -⟩ := h.entry w e he
  simp [owner?, he, hb]

theorem Extends.releases_eq (h : s.Extends t) {k : Task} (hk : k.Valid g s) :
    k.releases t = k.releases s := by
  cases k with
  | tell result w =>
    obtain ⟨i, ⟨e, he, -⟩, -⟩ := hk
    exact h.owner?_eq (by simp [he])
  | process | execute | resume | fail | release => rfl

/-- Records that are added do not change what was parked for a session. -/
theorem Extends.countP_parked (h : s.Extends t) (hs : s.Valid g) (i : SessionId) :
    s.parked.countP (t.owner? · = some i) = s.parked.countP (s.owner? · = some i) :=
  List.countP_congr fun w hw => by rw [h.owner?_eq (hs.parked_on_record hw)]

theorem Extends.countP_tasks (h : s.Extends t) {ts : List Task} (hs : ∀ k ∈ ts, k.Valid g s)
    (i : SessionId) :
    ts.countP (·.releases t = some i) = ts.countP (·.releases s = some i) :=
  List.countP_congr fun k hk => by rw [h.releases_eq (hs k hk)]

/-! ### Every move keeps the accounts -/

namespace Accounts

/-- Nothing happens to sessions, and what will release them stays in number. -/
theorem of_eq (h : s.Accounts) (he : s.Extends t) (hs : t.sessions = s.sessions)
    (hr : t.resolved = s.resolved) (hh : t.told = s.told)
    (hw : ∀ i, t.work i + t.owed i = s.work i + s.owed i) : t.Accounts where
  balance i u hi := by
    rw [session?, hs] at hi
    rw [hw, h.balance i u hi]
  busy i u hi := by
    rw [session?, hs] at hi
    exact h.busy i u hi
  unheard i u hi := by
    rw [session?, hs] at hi
    rw [hr]
    exact h.unheard i u hi
  once := by
    rw [parked, hs, heard, hh]
    exact h.once
  answered p hp := by
    rw [hh] at hp
    exact h.answered_extends he hp
  emptied p hp u hi := by
    rw [hh] at hp
    rw [session?, hs] at hi
    exact h.emptied p hp u hi

section

variable {k : Task} {ts new : List Task}

/-- The first task gives way to others that release the same. -/
theorem retask (h : s.Accounts) (hv : s.Valid g) (ht : s.tasks = k :: ts) (he : s.Extends t)
    (hs : t.sessions = s.sessions) (hr : t.resolved = s.resolved) (hh : t.told = s.told)
    (hq : t.queue = s.queue) (hts : t.tasks = new ++ ts)
    (hn : ∀ i, new.countP (·.releases t = some i) = [k].countP (·.releases s = some i)) :
    t.Accounts := by
  refine h.of_eq he hs hr hh fun i => ?_
  have hp : t.parked = s.parked := by rw [parked, hs]; rfl
  have htail : ∀ k' ∈ ts, k'.Valid g s := hv.tail ht
  rw [work, work, owed, owed, hq, hp, he.countP_parked hv, hts, ht, List.countP_append, hn,
    he.countP_tasks htail, ← List.countP_append]
  rfl

end

end Accounts

theorem session?_retain (s : Search) (n : Nat) (session : Option SessionId) (i : SessionId) :
    (s.retain n session).session? i = (s.session? i).map fun t =>
      { t with outstanding := t.outstanding + if session = some i then n else 0 } := by
  cases session with
  | none =>
    simp only [retain, reduceCtorEq, if_false, Nat.add_zero]
    exact Option.map_id'.symm
  | some k =>
    rw [retain, session?_modifySession]
    by_cases h : i = k
    · simp [h]
    · simp only [h, if_false, Option.some.injEq, Ne.symm h, Nat.add_zero]
      exact Option.map_id'.symm

/-- Work is added for one session. -/
theorem Accounts.retain (h : s.Accounts) (he : s.Extends t) {n : Nat} {session : Option SessionId}
    (hs : t.sessions = (s.retain n session).sessions) (hr : t.resolved = s.resolved)
    (hh : t.told = s.told)
    (hw : ∀ i, t.work i + t.owed i = s.work i + s.owed i + if session = some i then n else 0) :
    t.Accounts := by
  have hsess (i : SessionId) : t.session? i = (s.retain n session).session? i := by
    rw [session?, hs]; rfl
  refine ⟨fun i u hi => ?_, fun i u hi hp => ?_, fun i u hi hp hne => ?_, ?_, fun p hp => ?_,
    fun p hp u hi => ?_⟩
  · rw [hsess, session?_retain] at hi
    obtain ⟨v, hv, rfl⟩ := Option.map_eq_some_iff.mp hi
    rw [hw, ← h.balance i v hv]
  · rw [hsess, session?_retain] at hi
    obtain ⟨v, hv, rfl⟩ := Option.map_eq_some_iff.mp hi
    have := h.busy i v hv hp
    simp only
    omega
  · rw [hsess, session?_retain] at hi
    obtain ⟨v, hv, rfl⟩ := Option.map_eq_some_iff.mp hi
    rw [hr]
    exact h.unheard i v hv hp hne
  · have hp : t.parked = s.parked := by
      rw [← s.parked_retain n session, parked, hs]; rfl
    rw [hp, heard, hh]
    exact h.once
  · rw [hh] at hp
    exact h.answered_extends he hp
  · rw [hh] at hp
    rw [hsess, session?_retain] at hi
    obtain ⟨v, hv, rfl⟩ := Option.map_eq_some_iff.mp hi
    exact h.emptied p hp v hv

theorem countP_session {jobs : List Job} {session : Option SessionId}
    (hj : ∀ j ∈ jobs, j.session = session) (i : SessionId) :
    jobs.countP (·.session = some i) = if session = some i then jobs.length else 0 := by
  split
  · next h => exact List.countP_eq_length.mpr fun j hjm => by simp [hj j hjm, h]
  · next h => exact List.countP_eq_zero.mpr fun j hjm => by simp [hj j hjm, h]

/-- The first task ends with jobs on the worklist. -/
theorem Accounts.push (h : s.Accounts) (hv : s.Valid g) {k : Task} {ts : List Task}
    (ht : s.tasks = k :: ts) (hk : k.releases s = none) (he : s.Extends t)
    {session : Option SessionId} {jobs : List Job} (hj : ∀ j ∈ jobs, j.session = session)
    (hs : t.sessions = (s.retain jobs.length session).sessions) (hr : t.resolved = s.resolved)
    (hh : t.told = s.told) (hq : t.queue = s.queue ++ jobs) (hts : t.tasks = ts) :
    t.Accounts := by
  refine h.retain he hs hr hh fun i => ?_
  have hp : t.parked = s.parked := by
    rw [← s.parked_retain jobs.length session, parked, hs]; rfl
  have htail := he.countP_tasks (hv.tail ht) i
  rw [work, work, owed, owed, hp, hq, he.countP_parked hv, ht, hts, htail, List.countP_append,
    countP_session hj, List.countP_cons, hk]
  simp only [reduceCtorEq, decide_false, Bool.false_eq_true, if_false]
  omega

/-- The first task ends with one more waiter, parked on behalf of one session. -/
theorem Accounts.park (h : s.Accounts) (hv : s.Valid g) {k : Task} {ts : List Task}
    (ht : s.tasks = k :: ts) (hk : k.releases s = none) (he : s.Extends t) {w : RevisitId}
    {session : Option SessionId} (hw : t.owner? w = session) (hnew : s.record? w = none)
    (hp : t.parked.Perm (s.parked ++ [w])) (hh : t.told = s.told)
    (hts : t.tasks = ts) (hq : ∀ i u, t.session? i = some u →
      (∃ v, s.session? i = some v ∧ u.result = v.result ∧
        u.outstanding = v.outstanding + (if session = some i then 1 else 0) ∧
        t.queue.countP (·.session = some i) = s.queue.countP (·.session = some i)) ∨
      (s.session? i = none ∧ u.result = .pending ∧
        u.outstanding = 1 + (if session = some i then 1 else 0) ∧ s.work i = 0 ∧ s.owed i = 0 ∧
        t.queue.countP (·.session = some i) = 1))
    (hr : t.resolved = s.resolved) (hwait : ∀ i u v, t.session? i = some u →
      s.session? i = some v → v.result ≠ .pending → u.waiters = v.waiters) : t.Accounts := by
  have hparked (i : SessionId) : t.parked.countP (t.owner? · = some i) =
      s.parked.countP (s.owner? · = some i) + if session = some i then 1 else 0 := by
    rw [hp.countP_eq, List.countP_append, he.countP_parked hv]
    simp [List.countP_cons, hw]
  have howed (i : SessionId) : t.owed i = s.owed i := by
    rw [owed, owed, hts, he.countP_tasks (hv.tail ht), ht, List.countP_cons, hk]
    simp
  refine ⟨fun i u hi => ?_, fun i u hi hpend => ?_, fun i u hi hpend hne => ?_, ?_, fun p hp => ?_,
    fun p hp u hi => ?_⟩
  · rw [work, hparked, howed]
    rcases hq i u hi with ⟨v, hv', -, hout, hcount⟩ | ⟨-, -, hout, hwork, ho, hcount⟩
    · have := h.balance i v hv'
      rw [work] at this
      omega
    · rw [work] at hwork
      omega
  · rcases hq i u hi with ⟨v, hv', hres, hout, -⟩ | ⟨-, -, hout, -⟩
    · have := h.busy i v hv' (hres ▸ hpend)
      omega
    · omega
  · rcases hq i u hi with ⟨v, hv', hres, -⟩ | ⟨-, hres, -⟩
    · rw [hr]
      exact h.unheard i v hv' (hres ▸ hpend) (hwait i u v hi hv' (hres ▸ hpend) ▸ hne)
    · exact absurd hres hpend
  · rw [heard, hh]
    have hfresh : w ∉ s.parked ++ s.heard := by
      rw [List.mem_append, not_or]
      exact ⟨fun hm => hv.parked_on_record hm hnew, fun hm => h.heard_on_record hm hnew⟩
    refine ((hp.append_right _).nodup_iff).mpr ?_
    have hperm : (s.parked ++ [w] ++ s.heard).Perm (w :: (s.parked ++ s.heard)) := by
      rw [List.append_assoc]
      exact List.perm_middle
    exact (hperm.nodup_iff).mpr (List.nodup_cons.mpr ⟨hfresh, h.once⟩)
  · rw [hh] at hp
    exact h.answered_extends he hp
  · rw [hh] at hp
    obtain ⟨⟨result, hres, hpend⟩, -⟩ := h.answered p hp
    obtain ⟨v, hv', rfl⟩ := Option.map_eq_some_iff.mp hres
    rw [hwait _ u v hi hv' hpend]
    exact h.emptied p hp v hv'

/-- Nobody works for a session that does not exist. -/
theorem Valid.no_work (h : s.Valid g) {i : SessionId} (hi : s.session? i = none) :
    s.work i = 0 ∧ s.owed i = 0 := by
  have habsent : s.result? (some i) = none := by rw [result?, hi]; rfl
  have howner {w : RevisitId} (hw : s.record? w ≠ none) : s.owner? w ≠ some i := by
    obtain ⟨e, he⟩ := Option.ne_none_iff_exists'.mp hw
    intro heq
    rw [owner?, he, Option.bind_some] at heq
    exact (heq ▸ (h.revisits w e he).1.session) habsent
  constructor
  · rw [work, Nat.add_eq_zero_iff, List.countP_eq_zero, List.countP_eq_zero]
    refine ⟨fun j hj => ?_, fun w hw => by simpa using howner (h.parked_on_record hw)⟩
    have := (h.queue j hj).session
    rw [decide_eq_true_eq]
    intro heq
    exact (heq ▸ this) habsent
  · rw [owed, List.countP_eq_zero]
    intro k hk
    have hk := h.tasks k hk
    rw [decide_eq_true_eq]
    intro heq
    cases k with
    | process j =>
      have hsession : j.session = some i := heq
      exact (hsession ▸ hk.session) habsent
    | release session =>
      have hsession : session = some i := heq
      subst hsession
      exact hk habsent
    | tell result w =>
      obtain ⟨_, ⟨e, he, -⟩, -⟩ := hk
      exact howner (by simp [he]) heq
    | execute | resume | fail => cases heq

theorem record?_nextRevisit (s : Search) : s.record? s.nextRevisit = none := by
  simp [record?, nextRevisit, Numbered.get?]

theorem Valid.session?_nextSession (h : s.Valid g) : s.session? s.nextSession = none := by
  simp [session?, nextSession, Numbered.get?, h.keys]

/-- The revisit that was suspended last belongs to the session of its context. -/
theorem owner?_nextRevisit {c : Context} {o : Obligation} {p : Precondition}
    {link : Option RevisitId} (he : (s.suspend ⟨c, o, p, link⟩).Extends t) :
    t.owner? s.nextRevisit = c.session := by
  have hrec : (s.suspend ⟨c, o, p, link⟩).record? s.nextRevisit = some ⟨⟨c, o, p, link⟩, false⟩ :=
    Numbered.get?_concat_self _ _
  rw [he.owner?_eq (by simp [hrec]), owner?, hrec]
  rfl

end Search

open Search

theorem Reaction.releases_tasks (n : Nat) (c : Context) (link : Option RevisitId) (o : Obligation)
    (r : Reaction) (i : SessionId) :
    (r.tasks n c link o).countP (·.releases s = some i) = 0 := by
  cases r <;> simp [Reaction.tasks, Task.releases]

theorem Unfolding.releases_tasks (j : Job) (u : Unfolding) (i : SessionId) :
    (u.tasks j).countP (·.releases s = some i) = 0 := by
  cases u <;> simp [Unfolding.tasks, Task.releases]

theorem Obligation.session_jobs {c : Context} {link : Option RevisitId} {o : Obligation}
    {jobs : List Job} (hj : o.jobs? g c link = some jobs) : ∀ j ∈ jobs, j.session = c.session := by
  cases o with
  | here f =>
    cases hj
    simp
  | successors f | step f =>
    cases hj
    intro j hj
    obtain ⟨e, -, rfl⟩ := List.mem_map.mp hj
    rfl
  | constrain f w =>
    rw [Obligation.jobs?] at hj
    split at hj
    · cases hj
      simp
    · cases hj
  | revisit o p => cases hj

section Waiting

variable {n : Nat} {c : Context} {link : Option RevisitId} {o : Obligation} {p : Precondition}
  {ts : List Task}

theorem Search.Accounts.inquire (h : s.Accounts) (hv : s.Valid g)
    (ht : s.tasks = .execute n c link (.revisit o p) :: ts) :
    ((((s.suspend ⟨c, o, p, link⟩).openSession (c.inquiry p.formula) s.nextRevisit).retain 1
      c.session).withTasks ts).Accounts := by
  have he₁ := (s.extends_suspend ⟨c, o, p, link⟩).trans
    (extends_openSession _ (c.inquiry p.formula) s.nextRevisit)
  have he := he₁.trans ((extends_retain _ 1 c.session).withTasks ts)
  refine h.park hv ht rfl he (owner?_nextRevisit (((extends_openSession _ _ _).trans
    (extends_retain _ _ _)).withTasks _)) s.record?_nextRevisit ?_ ?_ rfl (fun i u hi => ?_)
    ?_ fun i u v hi hold hp => ?_
  · refine .of_eq ((parked_retain _ 1 c.session).trans ?_)
    exact parked_openSession _ _ _
  · cases c.session <;> rfl
  · change ((s.suspend _).openSession _ _ |>.retain 1 c.session).session? i = some u at hi
    have hqueue : ((((s.suspend ⟨c, o, p, link⟩).openSession (c.inquiry p.formula)
        s.nextRevisit).retain 1 c.session).withTasks ts).queue =
        s.queue ++ [{ c.inquiry p.formula with session := some s.nextSession }] := by
      cases c.session <;> rfl
    rw [session?_retain] at hi
    obtain ⟨v, hv', rfl⟩ := Option.map_eq_some_iff.mp hi
    rw [hqueue, List.countP_append]
    rcases Numbered.get?_concat_eq_some.mp hv' with hold | ⟨hidx, rfl⟩
    · refine .inl ⟨v, hold, rfl, rfl, ?_⟩
      have hne : s.nextSession ≠ i := by
        rintro rfl
        have hold : s.session? s.nextSession = some v := hold
        rw [hv.session?_nextSession] at hold
        cases hold
      simp [hne]
    · have hnext : i = s.nextSession := by
        cases i
        simp only [nextSession, SessionId.mk.injEq, ← hv.keys]
        exact hidx
      subst hnext
      obtain ⟨hwork, howed⟩ := hv.no_work hv.session?_nextSession
      refine .inr ⟨hv.session?_nextSession, rfl, rfl, hwork, howed, ?_⟩
      rw [work, Nat.add_eq_zero_iff] at hwork
      simp [hwork.1]
  · cases c.session <;> rfl
  · change ((s.suspend _).openSession _ _ |>.retain 1 c.session).session? i = some u at hi
    rw [session?_retain, session?_openSession (s := s.suspend _) hold] at hi
    cases hi
    rfl

theorem Search.Accounts.join (h : s.Accounts) (hv : s.Valid g)
    (ht : s.tasks = .execute n c link (.revisit o p) :: ts) {k : SessionId}
    (hk : s.Open (some k)) :
    ((((s.suspend ⟨c, o, p, link⟩).join k s.nextRevisit).retain 1 c.session).withTasks
      ts).Accounts := by
  obtain ⟨u, hu, hpend⟩ := Option.map_eq_some_iff.mp hk
  have he := ((s.extends_suspend ⟨c, o, p, link⟩).trans (extends_join _ k s.nextRevisit)).trans
    ((extends_retain _ 1 c.session).withTasks ts)
  have hsess {i : SessionId} {x : Session}
      (hi : ((((s.suspend ⟨c, o, p, link⟩).join k s.nextRevisit).retain 1 c.session).withTasks
        ts).session? i = some x) : ∃ v, s.session? i = some v ∧ x.result = v.result ∧
        x.outstanding = v.outstanding + (if c.session = some i then 1 else 0) ∧
        (i ≠ k → x.waiters = v.waiters) := by
    change ((s.suspend _).join _ _ |>.retain 1 c.session).session? i = some x at hi
    rw [session?_retain] at hi
    obtain ⟨v, hv', rfl⟩ := Option.map_eq_some_iff.mp hi
    rw [Search.join, session?_modifySession] at hv'
    split at hv'
    · next heq =>
      obtain ⟨v', hold, rfl⟩ := Option.map_eq_some_iff.mp hv'
      exact ⟨v', hold, rfl, rfl, fun hne => absurd heq hne⟩
    · exact ⟨v, hv', rfl, rfl, fun _ => rfl⟩
  refine h.park hv ht rfl he (owner?_nextRevisit (((extends_join _ _ _).trans
    (extends_retain _ _ _)).withTasks _)) s.record?_nextRevisit ?_ ?_ rfl (fun i x hi => ?_)
    ?_ fun i x v hi hold hp => ?_
  · exact (List.Perm.of_eq (parked_retain _ 1 c.session)).trans (parked_join hu s.nextRevisit)
  · cases c.session <;> rfl
  · obtain ⟨v, hv', hres, hout, -⟩ := hsess hi
    refine .inl ⟨v, hv', hres, hout, ?_⟩
    cases c.session <;> rfl
  · cases c.session <;> rfl
  · obtain ⟨v', hv', hres, hout, hwait⟩ := hsess hi
    obtain rfl := Option.some.inj (hold.symm.trans hv')
    refine hwait fun hik => hp ?_
    subst hik
    rw [hu] at hold
    exact Option.some.inj hold ▸ hpend

end Waiting

/-- The first task ends with a change of one session, which it may release. -/
theorem Search.Accounts.change (h : s.Accounts) (hv : s.Valid g) {k : Task} {ts : List Task}
    (ht : s.tasks = k :: ts) (he : s.Extends t) {i : SessionId} {u : Session}
    {f : Session → Session} (hi : s.session? i = some u)
    (hs : t.sessions = (s.modifySession i f).sessions) (hf : ∀ v, (f v).waiters = v.waiters)
    (hh : t.told = s.told) (hq : t.queue = s.queue) (hts : t.tasks = ts)
    (hout : (f u).outstanding + (if k.releases s = some i then 1 else 0) = u.outstanding)
    (hk : ∀ m, k.releases s = some m → m = i)
    (hbusy : (f u).result = .pending → u.result = .pending ∧ (f u).outstanding ≠ 0)
    (hres : ∀ m ∈ s.resolved, m ∈ t.resolved)
    (hnew : (f u).result ≠ .pending → u.result = .pending → i ∈ t.resolved) : t.Accounts := by
  have hsess {m : SessionId} {v : Session} (hm : t.session? m = some v) :
      (m = i ∧ v = f u) ∨ (m ≠ i ∧ s.session? m = some v) := by
    have hm : (s.modifySession i f).session? m = some v := by rw [session?, ← hs]; exact hm
    rw [session?_modifySession] at hm
    split at hm
    · next heq =>
      subst heq
      rw [hi, Option.map_some] at hm
      exact .inl ⟨rfl, (Option.some.inj hm).symm⟩
    · next hne => exact .inr ⟨hne, hm⟩
  have hp : t.parked = s.parked := by
    rw [← s.parked_modifySession_eq i hf, parked, hs]; rfl
  have hwork (m : SessionId) : t.work m = s.work m := by
    rw [work, work, hp, hq, he.countP_parked hv]
  have howed (m : SessionId) : t.owed m + (if k.releases s = some m then 1 else 0) = s.owed m := by
    rw [owed, owed, hts, he.countP_tasks (hv.tail ht), ht, List.countP_cons]
    simp
  refine ⟨fun m v hm => ?_, fun m v hm hpend => ?_, fun m v hm hpend hne => ?_, ?_, fun p hp => ?_,
    fun p hp v hm => ?_⟩
  · have := howed m
    rw [hwork]
    rcases hsess hm with ⟨rfl, rfl⟩ | ⟨hne, hm⟩
    · have := h.balance m u hi
      omega
    · rw [if_neg fun hrel => hne (hk m hrel)] at this
      rw [h.balance m v hm]
      omega
  · rcases hsess hm with ⟨rfl, rfl⟩ | ⟨-, hm⟩
    · exact (hbusy hpend).2
    · exact h.busy m v hm hpend
  · rcases hsess hm with ⟨rfl, rfl⟩ | ⟨-, hm⟩
    · by_cases hu : u.result = .pending
      · exact hnew hpend hu
      · exact hres m (h.unheard m u hi hu (by rwa [hf] at hne))
    · exact hres m (h.unheard m v hm hpend hne)
  · rw [hp, heard, hh]
    exact h.once
  · rw [hh] at hp
    exact h.answered_extends he hp
  · rw [hh] at hp
    rcases hsess hm with ⟨heq, rfl⟩ | ⟨-, hm⟩
    · rw [hf]
      exact h.emptied p hp u (heq ▸ hi)
    · exact h.emptied p hp v hm

theorem Search.Accounts.notify (h : s.Accounts) (hv : s.Valid g) (ht : s.tasks = [])
    {i : SessionId} {rest : List SessionId} {u : Session} (hr : s.resolved = i :: rest)
    (hi : s.session? i = some u) :
    ({ s.dismiss i with
      resolved := rest
      told := s.told ++ [(i, u.waiters.toList)]
      tasks := u.waiters.toList.map (.tell u.result) } : Search).Accounts := by
  have hsess {m : SessionId} {v : Session} (hm : (s.dismiss i).session? m = some v) :
      ∃ v', s.session? m = some v' ∧ v.result = v'.result ∧ v.outstanding = v'.outstanding ∧
        (m = i → v.waiters.toList = []) ∧ (m ≠ i → v.waiters = v'.waiters) := by
    rw [dismiss, session?_modifySession] at hm
    split at hm
    · obtain ⟨v', hv', rfl⟩ := Option.map_eq_some_iff.mp hm
      exact ⟨v', hv', rfl, rfl, fun _ => Deque.toList_empty, fun hne => absurd ‹_› hne⟩
    · exact ⟨v, hm, rfl, rfl, fun heq => absurd heq ‹_›, fun _ => rfl⟩
  refine ⟨fun m v hm => ?_, fun m v hm hpend => ?_, fun m v hm hpend hne => ?_, ?_, fun p hp => ?_,
    fun p hp v hm => ?_⟩
  · obtain ⟨v', hv', -, hout, -⟩ := hsess hm
    rw [hout, h.balance m v' hv', owed, ht, List.countP_nil, work]
    have hperm := (parked_dismiss hi).countP_eq (fun w => decide (s.owner? w = some m))
    rw [List.countP_append] at hperm
    have htells : (u.waiters.toList.map (Task.tell u.result)).countP
        (fun k => decide (k.releases s = some m)) =
        u.waiters.toList.countP (fun w => decide (s.owner? w = some m)) := by
      rw [List.countP_map]
      rfl
    have hgoal : s.queue.countP (fun j => decide (j.session = some m)) +
        s.parked.countP (fun w => decide (s.owner? w = some m)) + 0 =
        s.queue.countP (fun j => decide (j.session = some m)) +
        (s.dismiss i).parked.countP (fun w => decide (s.owner? w = some m)) +
        (u.waiters.toList.map (Task.tell u.result)).countP
          (fun k => decide (k.releases s = some m)) := by
      rw [htells]
      omega
    exact hgoal
  · obtain ⟨v', hv', hres, hout, -⟩ := hsess hm
    rw [hout]
    exact h.busy m v' hv' (hres ▸ hpend)
  · obtain ⟨v', hv', hres, -, hempty, hwait⟩ := hsess hm
    have hmi : m ≠ i := fun heq => hne (hempty heq)
    have := h.unheard m v' hv' (hres ▸ hpend) (hwait hmi ▸ hne)
    rw [hr] at this
    exact (List.mem_cons.mp this).resolve_left hmi
  · have hheard : (s.told ++ [(i, u.waiters.toList)]).flatMap (·.2) =
        s.heard ++ u.waiters.toList := by simp [heard]
    change ((s.dismiss i).parked ++ (s.told ++ [(i, u.waiters.toList)]).flatMap (·.2)).Nodup
    rw [hheard]
    have hperm : ((s.dismiss i).parked ++ (s.heard ++ u.waiters.toList)).Perm
        (s.parked ++ s.heard) := by
      refine (List.perm_append_comm.append_left _).trans ?_
      rw [← List.append_assoc]
      exact (parked_dismiss hi).append_right _
    exact hperm.nodup_iff.mpr h.once
  · have hset : (s.dismiss i).Settled (some p.1) ∧ ∀ w ∈ p.2, (s.dismiss i).Waits p.1 w := by
      rcases List.mem_append.mp hp with hp | hp
      · exact h.answered_extends (s.extends_dismiss i) hp
      · rw [List.mem_singleton.mp hp]
        exact ⟨(s.extends_dismiss i).settled (hv.resolved i (by simp [hr])),
          fun w hw => (hv.waiters i u hi w hw).extends (s.extends_dismiss i)⟩
    exact hset
  · obtain ⟨v', hv', -, -, hempty, hwait⟩ := hsess hm
    by_cases hpi : p.1 = i
    · exact hempty hpi
    · rw [hwait hpi]
      rcases List.mem_append.mp hp with hp | hp
      · exact h.emptied p hp v' hv'
      · exact absurd (by rw [List.mem_singleton.mp hp]) hpi

theorem Search.Takes.perm {j : Job} {rest : List Job} (h : s.Takes j rest) :
    s.queue.Perm (j :: rest) := by
  unfold Takes at h
  split at h
  · rw [h]
    exact List.perm_append_comm
  · exact .of_eq h

theorem Move.accounts (h : Move g s t) (hv : s.Valid g) (hs : s.Accounts) : t.Accounts := by
  have he := h.extends
  have howner {w : RevisitId} {e : RevisitEntry} (hw : s.record? w = some e) :
      s.owner? w = e.revisit.session := by rw [owner?, hw, Option.bind_some]
  cases h with
  | notify ht hr hi => exact hs.notify hv ht hr hi
  | @take j rest ht hr hq =>
    refine hs.of_eq he rfl rfl rfl fun i => ?_
    have hparked : ({ s with queue := rest, tasks := [.process j] } : Search).work i =
        rest.countP (·.session = some i) + s.parked.countP (s.owner? · = some i) := rfl
    rw [hparked, work, owed, owed, ht, hq.perm.countP_eq, List.countP_nil, List.countP_singleton,
      List.countP_cons, Task.releases]
    omega
  | stale ht _ | repeated ht _ _ =>
    exact hs.retask hv ht he rfl rfl rfl rfl (List.singleton_append).symm fun _ => rfl
  | @visit j ts node u ht ho hnew hn hu =>
    refine hs.retask hv ht he rfl rfl rfl rfl (List.append_cons _ _ _) fun i => ?_
    rw [List.countP_append, u.releases_tasks, Nat.zero_add]
    rfl
  | spawn ht hj =>
    refine hs.push hv ht rfl he (Obligation.session_jobs hj) ?_ ?_ ?_ rfl rfl
    · rfl
    all_goals simp only [Search.push, Search.retain]; split <;> rfl
  | judge ht _ _ _ =>
    exact hs.retask hv ht he rfl rfl rfl rfl rfl fun i => Reaction.releases_tasks _ _ _ _ _ i
  | @require n c link o p ts ht hp hk =>
    have hsession : (c.demand p.formula s.nextRevisit).session = c.session := rfl
    refine hs.push hv ht rfl he (List.forall_mem_singleton.mpr hsession) ?_ ?_ ?_ rfl rfl
    all_goals cases c.session <;> rfl
  | inquire ht _ _ _ => exact hs.inquire hv ht
  | join ht _ _ _ hi => exact hs.join hv ht hi
  | answer ht _ _ _ _ _ _ =>
    exact hs.retask hv ht he rfl rfl rfl rfl rfl fun i => Reaction.releases_tasks _ _ _ _ _ i
  | answerLate ht _ _ _ _ _ | resumeNone ht | resumeAgain ht _ _ | resumeLate ht _ _ _
    | decideLate ht _ _ | releaseNone ht =>
    exact hs.retask hv ht he rfl rfl rfl rfl (List.nil_append _).symm fun _ => rfl
  | resume ht _ _ _ =>
    exact hs.retask hv ht he rfl rfl rfl rfl (List.singleton_append).symm fun _ => rfl
  | @tellLate result w ts e ht hi _ =>
    refine hs.retask hv ht he rfl rfl rfl rfl (List.singleton_append).symm fun i => ?_
    rw [List.countP_singleton, List.countP_singleton, Task.releases, Task.releases, howner hi]
  | @tell result w ts e finding ht hi _ _ =>
    refine hs.retask hv ht he rfl rfl rfl rfl (List.append_cons _ _ _) fun i => ?_
    rw [List.countP_append, Reaction.releases_tasks, Nat.zero_add, List.countP_singleton,
      List.countP_singleton, Task.releases, Task.releases, howner hi]
  | @exceed i x ts ht hx =>
    obtain ⟨u, hu, -⟩ := Option.map_eq_some_iff.mp
      (Option.ne_none_iff_exists'.mp (hv.head ht)).choose_spec
    exact hs.change hv ht he hu rfl (fun _ => rfl) rfl rfl rfl rfl (fun _ h => by cases h)
      (fun hp => ⟨hp, hs.busy i u hu hp⟩) (fun _ h => h) fun hne hp => absurd hp hne
  | @decide i x ts ht hx hi =>
    obtain ⟨u, hu, hp⟩ := Option.map_eq_some_iff.mp hi
    exact hs.change hv ht he hu rfl (fun _ => rfl) rfl rfl rfl rfl (fun _ h => by cases h)
      (fun hp => by cases hp) (fun _ h => List.mem_append_left _ h)
      fun _ _ => List.mem_append_right _ List.mem_cons_self
  | @release i ts u ht hi hn hl =>
    refine hs.change hv ht he hi rfl (fun _ => rfl) rfl rfl rfl ?_ (fun m h => ?_)
      (fun hp => ⟨hp, ?_⟩) (fun _ h => h) fun hne hp => absurd hp hne
    · simp only [Task.releases, if_true]
      omega
    · exact (Option.some.inj h).symm
    · have := hl.resolve_right (fun h => h hp)
      simp only
      omega
  | @finish i ts u ht hi hn hr =>
    have hmod : (((s.release i).complete i u.outcome).withTasks ts).sessions =
        (s.modifySession i ((fun v => { v with result := u.outcome }) ∘
          fun v => { v with outstanding := v.outstanding - 1 })).sessions :=
      Numbered.modify_modify _ _ _ _
    refine hs.change hv ht he hi hmod (fun _ => rfl) rfl rfl rfl ?_ (fun m h => ?_)
      (fun hp => absurd hp (Valid.outcome_ne_pending u)) (fun _ h => List.mem_append_left _ h)
      fun _ _ => List.mem_append_right _ List.mem_cons_self
    · simp only [Task.releases, if_true, Function.comp]
      omega
    · exact (Option.some.inj h).symm

/-- A revisit that waits goes on waiting until it is told. -/
theorem Move.waiting (h : Move g s t) {w : RevisitId} (hw : w ∈ s.parked ++ s.heard) :
    w ∈ t.parked ++ t.heard := by
  have hsame (u : Search) (hs : u.sessions = s.sessions) (hh : u.told = s.told) :
      w ∈ u.parked ++ u.heard := by rwa [parked, heard, hs, hh]
  have hkept (u : Search) (hp : u.parked = s.parked) (hh : u.told = s.told) :
      w ∈ u.parked ++ u.heard := by rwa [heard, hp, hh]
  have hmore (u : Search) (v : RevisitId) (hp : u.parked.Perm (s.parked ++ [v]))
      (hh : u.told = s.told) : w ∈ u.parked ++ u.heard := by
    rw [heard, hh]
    rcases List.mem_append.mp hw with hw | hw
    · exact List.mem_append_left _ (hp.mem_iff.mpr (List.mem_append_left _ hw))
    · exact List.mem_append_right _ hw
  have hpush (u : Search) (session : Option SessionId) (jobs : List Job) (ts : List Task)
      (hp : u.sessions = s.sessions) (hh : u.told = s.told) :
      w ∈ ((u.push session jobs).withTasks ts).parked ++ ((u.push session jobs).withTasks ts).heard := by
    refine hkept _ ((u.parked_push session jobs).trans (by rw [parked, hp]; rfl)) ?_
    rw [← hh]
    cases session <;> rfl
  cases h with
  | @notify i rest u ht hr hi =>
    have hperm : ((s.dismiss i).parked ++ (s.heard ++ u.waiters.toList)).Perm
        (s.parked ++ s.heard) := by
      refine (List.perm_append_comm.append_left _).trans ?_
      rw [← List.append_assoc]
      exact (parked_dismiss hi).append_right _
    have hgoal := hperm.mem_iff.mpr hw
    simpa [heard, parked] using hgoal
  | spawn => exact hpush s _ _ _ rfl rfl
  | require => exact hpush (s.suspend _) _ _ _ rfl rfl
  | @inquire n c link o p ts =>
    refine hmore _ s.nextRevisit (.of_eq ((parked_retain _ 1 c.session).trans ?_)) ?_
    · exact parked_openSession _ _ _
    · cases c.session <;> rfl
  | @join n c link o p ts i _ _ _ _ hi =>
    obtain ⟨u, hu, -⟩ := Option.map_eq_some_iff.mp hi
    refine hmore _ s.nextRevisit ((List.Perm.of_eq (parked_retain _ 1 c.session)).trans
      (parked_join (s := s.suspend _) hu s.nextRevisit)) ?_
    cases c.session <;> rfl
  | exceed => exact hkept _ (s.parked_modifySession_eq _ (by intro t; rfl)) rfl
  | decide => exact hkept _ (s.parked_modifySession_eq _ (by intro t; rfl)) rfl
  | release => exact hkept _ (s.parked_modifySession_eq _ (by intro t; rfl)) rfl
  | @finish i ts u =>
    refine hkept _ (((s.release i).parked_modifySession_eq i ?_).trans
      (s.parked_modifySession_eq i ?_)) rfl
    · exact fun _ => rfl
    · exact fun _ => rfl
  | take | stale | repeated | visit | judge | answerLate | answer | resumeNone | resumeAgain
    | resumeLate | resume | tellLate | tell | decideLate | releaseNone => exact hsame _ rfl rfl

theorem Moves.waiting (h : Moves g s t) {w : RevisitId} (hw : w ∈ s.parked ++ s.heard) :
    w ∈ t.parked ++ t.heard := by
  induction h with
  | refl => exact hw
  | step first _ ih => exact ih (first.waiting hw)

/-! ### Whatever a move needs is there -/

theorem Search.Valid.ready (hv : s.Valid g) (hs : s.Accounts) : s.Ready g := by
  unfold Search.Ready
  split
  · intro i hi
    obtain ⟨r, hr, -⟩ := hv.resolved i (List.mem_of_mem_head? hi)
    obtain ⟨t, ht, -⟩ := Option.map_eq_some_iff.mp hr
    simp [ht]
  · next k ts ht =>
    have hk := hv.head ht
    cases k with
    | process j => exact ⟨hk.node, hk.session⟩
    | execute n c link o => exact ⟨hk.1.node, hk.1.session⟩
    | resume n c link =>
      rintro i rfl
      obtain ⟨e, he⟩ := Option.ne_none_iff_exists'.mp (hk.1.link i rfl)
      have hpos := Numbered.pos_of_get? he
      have hbound : i.index ≤ n := hk.2
      exact ⟨by omega, e, he, (hv.revisits i e he).1.session⟩
    | fail session x => exact hk
    | release session =>
      rintro i rfl
      obtain ⟨r, hr⟩ := Option.ne_none_iff_exists'.mp hk
      obtain ⟨u, hu, -⟩ := Option.map_eq_some_iff.mp hr
      refine ⟨u, hu, ?_⟩
      rw [hs.balance i u hu, owed, ht, List.countP_cons]
      simp [Task.releases]
    | tell result w =>
      obtain ⟨_, ⟨e, he, -⟩, -⟩ := hk
      exact ⟨e, he, (hv.revisits w e he).1.session⟩

namespace Search

theorem Valid.start (order : PendingOrder) : (Search.start order).Valid g := by
  constructor <;> simp [Search.start, record?, session?, Numbered.get?_eq_some_iff]

theorem Accounts.start (order : PendingOrder) : (Search.start order).Accounts := by
  constructor <;> simp [Search.start, session?, parked, heard, Numbered.get?_eq_some_iff]

theorem extends_seed (s : Search) (g : Kripke) (f : Formula) : s.Extends (s.seed g f) :=
  .of_eq rfl rfl (fun _ => rfl) rfl

theorem Valid.seed (hv : s.Valid g) (f : Formula) : (s.seed g f).Valid g := by
  refine hv.of_eq rfl rfl rfl (s.extends_seed g f) (fun j hj => ?_) hv.resolved hv.tasks
  rcases List.mem_append.mp hj with hj | hj
  · exact hv.queue j hj
  · obtain ⟨i, hi, rfl⟩ := List.mem_map.mp hj
    exact ⟨g.initial_inside i hi, by simp [Job.root, Context.start, result?], by simp [Job.root]⟩

theorem Accounts.seed (h : s.Accounts) (g : Kripke) (f : Formula) : (s.seed g f).Accounts := by
  refine h.of_eq (s.extends_seed g f) rfl rfl rfl fun i => ?_
  have hnone : (g.initial.toList.map (Job.root · f)).countP (·.session = some i) = 0 := by
    simp [List.countP_eq_zero, Job.root, Context.start]
  have hwork : (s.seed g f).work i = (s.queue ++ g.initial.toList.map (Job.root · f)).countP
      (·.session = some i) + s.parked.countP (s.owner? · = some i) := rfl
  rw [hwork, List.countP_append, hnone]
  rfl

end Search

theorem Course.valid_accounts {order : PendingOrder} {fs : List Formula} {past : Search}
    (h : Course g order fs past s) : s.Valid g ∧ s.Accounts := by
  induction h with
  | start => exact ⟨.start order, .start order⟩
  | seed before hs f ih => exact ⟨ih.1.seed f.universal, ih.2.seed g f.universal⟩
  | move before hm ih => exact ⟨hm.valid ih.1, hm.accounts ih.1 ih.2⟩

end CostCTL
