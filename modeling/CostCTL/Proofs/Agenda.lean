import CostCTL.Proofs.Scope

/-!
# The tasks of a turn

In a turn one piece of work is carried on at a time, for one session, which is released when it is
done. After that waiters may be left to be told.
-/

namespace CostCTL

variable {g : Kripke} {s t : Search} {f : Formula} {base : Nat}

/-- The session that the task carries on work for. -/
def Task.session? : Task → Option (Option SessionId)
  | .execute _ c _ _ | .resume _ c _ => some c.session
  | .fail session _ => some session
  | .process _ | .release _ | .tell .. => none

def Task.isTell : Task → Bool
  | .tell .. => true
  | _ => false

/-- A job is to be processed, or work is carried on until the session is released. The waiters left
to be told come last. -/
inductive Task.Orderly : List Task → Prop where
  | tells {l : List Task} (h : ∀ k ∈ l, k.isTell = true) : Orderly l
  | process (j : Job) {l : List Task} (h : ∀ k ∈ l, k.isTell = true) : Orderly (.process j :: l)
  | release (session : Option SessionId) {l : List Task} (h : ∀ k ∈ l, k.isTell = true) :
    Orderly (.release session :: l)
  | work {k : Task} {session : Option SessionId} {l : List Task} (hk : k.session? = some session)
      (h : ∀ k ∈ l, k.isTell = true) : Orderly (k :: .release session :: l)

namespace Task.Orderly

variable {k : Task} {ts : List Task}

theorem tail_process {j : Job} (h : Orderly (.process j :: ts)) : ∀ k ∈ ts, k.isTell = true := by
  cases h with
  | tells h => cases h _ List.mem_cons_self
  | process _ h => exact h
  | work hk => cases hk

theorem tail_release {session : Option SessionId} (h : Orderly (.release session :: ts)) :
    ∀ k ∈ ts, k.isTell = true := by
  cases h with
  | tells h => cases h _ List.mem_cons_self
  | release _ h => exact h
  | work hk => cases hk

theorem tail_tell {result : SessionResult} {i : RevisitId} (h : Orderly (.tell result i :: ts)) :
    ∀ k ∈ ts, k.isTell = true := by
  cases h with
  | tells h => exact fun k hk => h k (List.mem_cons_of_mem _ hk)
  | work hk => cases hk

/-- After work its session is released. -/
theorem tail_work {session : Option SessionId} (h : Orderly (k :: ts))
    (hk : k.session? = some session) :
    ∃ l, ts = .release session :: l ∧ ∀ k ∈ l, k.isTell = true := by
  cases h with
  | tells h =>
    have := h k List.mem_cons_self
    cases k with
    | tell => cases hk
    | process | execute | resume | fail | release => cases this
  | process | release => cases hk
  | work hk' h =>
    cases hk.symm.trans hk'
    exact ⟨_, rfl, h⟩

/-- Work may give way to other work for the same session. -/
theorem replace {session : Option SessionId} (h : Orderly (k :: ts)) (hk : k.session? = some session)
    {k' : Task} (hk' : k'.session? = some session) : Orderly (k' :: ts) := by
  obtain ⟨l, rfl, hl⟩ := h.tail_work hk
  exact .work hk' hl

theorem drop {session : Option SessionId} (h : Orderly (k :: ts)) (hk : k.session? = some session) :
    Orderly ts := by
  obtain ⟨l, rfl, hl⟩ := h.tail_work hk
  exact .release session hl

end Task.Orderly

theorem Task.isTell_of_session? {k : Task} {session : Option SessionId}
    (h : k.session? = some session) : k.isTell = false := by
  cases k with
  | execute | resume | fail => rfl
  | process | release | tell => cases h

theorem Reaction.tasks_eq (reaction : Reaction) (n : Nat) (c : Context) (link : Option RevisitId)
    (o : Obligation) : ∃ k, reaction.tasks n c link o = [k] ∧ k.session? = some c.session := by
  cases reaction <;> exact ⟨_, rfl, rfl⟩

theorem Unfolding.tasks_eq (u : Unfolding) (j : Job) :
    ∃ k, u.tasks j = [k] ∧ k.session? = some j.session := by
  cases u <;> exact ⟨_, rfl, rfl⟩

theorem Reaction.orderly {n : Nat} {c : Context} {link : Option RevisitId} {o : Obligation}
    {l : List Task} (reaction : Reaction) (h : ∀ k ∈ l, k.isTell = true) :
    Task.Orderly (reaction.tasks n c link o ++ .release c.session :: l) := by
  obtain ⟨k, hk, hsession⟩ := reaction.tasks_eq n c link o
  rw [hk]
  exact .work hsession h

theorem Move.orderly (h : Move g s t) (hi : s.All base (s.InScope f))
    (hs : Task.Orderly s.tasks) : Task.Orderly t.tasks := by
  cases h with
  | notify =>
    refine .tells fun k hk => ?_
    obtain ⟨w, -, rfl⟩ := List.mem_map.mp hk
    rfl
  | take => exact .process _ (by simp)
  | stale ht | repeated ht =>
    rw [ht] at hs
    exact .release _ hs.tail_process
  | @visit j ts node u ht =>
    rw [ht] at hs
    cases u <;> exact .work rfl hs.tail_process
  | spawn ht | require ht | inquire ht | join ht | answerLate ht =>
    rw [ht] at hs
    exact hs.drop rfl
  | @judge n c link o p ts _ _ ht | @answer n c link o p ts _ _ _ ht =>
    rw [ht] at hs
    obtain ⟨l, rfl, hl⟩ := hs.tail_work rfl
    exact Reaction.orderly _ hl
  | resumeNone ht | resumeAgain ht | resumeLate ht | exceed ht | decide ht | decideLate ht =>
    rw [ht] at hs
    exact hs.drop rfl
  | @resume n c i ts e ht he =>
    obtain ⟨e', he', hsession, -⟩ := (hi.head ht _ rfl).2 i rfl
    obtain rfl := Option.some.inj (he.symm.trans he')
    rw [ht] at hs
    exact hs.replace rfl (by rw [← hsession]; rfl)
  | tellLate ht =>
    rw [ht] at hs
    exact .release _ hs.tail_tell
  | tell ht =>
    rw [ht] at hs
    exact Reaction.orderly _ hs.tail_tell
  | releaseNone ht | release ht | finish ht =>
    rw [ht] at hs
    exact .tells hs.tail_release

theorem Course.orderly {order : PendingOrder} {fs : List Formula} {past : Search}
    (h : Course g order fs past s) : Task.Orderly s.tasks := by
  induction h with
  | start => exact .tells (by simp [Search.start])
  | seed _ _ _ ih => exact ih
  | move before hm ih => exact hm.orderly before.inScope ih

/-- Work is carried on for a session without a result. -/
def Search.Working (s : Search) : Prop :=
  ∀ k ts session, s.tasks = k :: ts → k.session? = some session → s.Open session

theorem Move.working (h : Move g s t) (hs : Task.Orderly s.tasks) (hw : s.Working) :
    t.Working := by
  intro k ts session hts hk
  have hidle {x : Task} {l : List Task} (hx : t.tasks = x :: l) (hnone : x.session? = none) :
      t.Open session := by
    cases hts.symm.trans hx
    cases hk.symm.trans hnone
  -- after work comes the release of its session
  have hdrop {x : Task} {l : List Task} {session' : Option SessionId} (hx : s.tasks = x :: l)
      (hsession : x.session? = some session') (ht : t.tasks = l) : t.Open session := by
    rw [hx] at hs
    obtain ⟨l', rfl, -⟩ := hs.tail_work hsession
    exact hidle ht rfl
  have htells (hall : ∀ x ∈ t.tasks, x.isTell = true) : t.Open session := by
    rw [hts] at hall
    cases (hall k List.mem_cons_self).symm.trans (Task.isTell_of_session? hk)
  -- other work comes in its place, for a session that is open
  have hnew {x : Task} {l : List Task} {session' : Option SessionId} (hx : t.tasks = x :: l)
      (hsession : x.session? = some session') (ho : t.Open session') : t.Open session := by
    cases hts.symm.trans hx
    cases hk.symm.trans hsession
    exact ho
  cases h with
  | notify =>
    refine htells fun x hx => ?_
    obtain ⟨w, -, rfl⟩ := List.mem_map.mp hx
    rfl
  | take => exact hidle rfl rfl
  | stale | repeated | tellLate => exact hidle rfl rfl
  | @visit j l _ u _ ho =>
    obtain ⟨x, hx, hsession⟩ := u.tasks_eq j
    refine hnew (l := .release j.session :: l) ?_ hsession ho
    rw [hx]
    rfl
  | @judge n c link o p l _ judgement ht =>
    obtain ⟨x, hx, hsession⟩ := (p.react c (.ofJudgement c judgement)).tasks_eq n c link o
    refine hnew (l := l) ?_ hsession (hw _ _ _ ht rfl)
    rw [Search.withTasks, hx]
    rfl
  | @answer n c link o p l _ _ finding _ _ _ _ _ _ ho =>
    obtain ⟨x, hx, hsession⟩ := (p.react c finding).tasks_eq n c link o
    refine hnew (l := l) ?_ hsession ho
    rw [Search.withTasks, hx]
    rfl
  | resume _ _ _ ho => exact hnew rfl rfl ho
  | @tell _ _ l e finding _ _ _ ho =>
    obtain ⟨x, hx, hsession⟩ := (e.revisit.precondition.react e.revisit.toContext finding).tasks_eq
      (chainBound e.revisit.parent) e.revisit.toContext e.revisit.parent e.revisit.resume
    refine hnew (l := .release e.revisit.session :: l) ?_ hsession ho
    rw [Search.withTasks, hx]
    rfl
  | spawn ht | require ht | inquire ht | join ht | answerLate ht | resumeNone ht | resumeAgain ht
    | resumeLate ht | exceed ht | decide ht | decideLate ht => exact hdrop ht rfl rfl
  | releaseNone ht | release ht | finish ht =>
    rw [ht] at hs
    exact htells hs.tail_release

theorem Course.working {order : PendingOrder} {fs : List Formula} {past : Search}
    (h : Course g order fs past s) : s.Working := by
  induction h with
  | start => exact fun _ _ _ hts _ => by cases hts
  | seed _ _ _ ih => exact ih
  | move before hm ih => exact hm.working before.orderly ih

/-! ### From move to move -/

/-- Waiters are taken when they are to be told, and come one by one. -/
theorem Move.parked_cases (h : Move g s t) :
    t.parked = s.parked ∨
    (∃ i u, s.session? i = some u ∧ (t.parked ++ u.waiters.toList).Perm s.parked ∧
      t.tasks = u.waiters.toList.map (.tell u.result)) ∨
    ∃ n c link o p ts, s.tasks = .execute n c link (.revisit o p) :: ts ∧
      t.parked.Perm (s.parked ++ [s.nextRevisit]) ∧ t.owner? s.nextRevisit = c.session := by
  have he := h.extends
  cases h with
  | @notify i rest u ht hr hi => exact .inr (.inl ⟨i, u, hi, Search.parked_dismiss hi, rfl⟩)
  | @spawn n c link o ts jobs => exact .inl (s.parked_push c.session jobs)
  | @require n c link o p ts => exact .inl ((s.suspend _).parked_push c.session _)
  | @inquire n c link o p ts ht =>
    have hsuspend := ((Search.extends_openSession (s.suspend ⟨c, o, p, link⟩) (c.inquiry p.formula)
      s.nextRevisit).trans (Search.extends_retain _ 1 c.session)).withTasks ts
    exact .inr (.inr ⟨n, c, link, o, p, ts, ht, .of_eq ((Search.parked_retain _ 1 c.session).trans
      (Search.parked_openSession _ _ _)), Search.owner?_nextRevisit hsuspend⟩)
  | @join n c link o p ts i ht _ _ _ hi =>
    obtain ⟨u, hu, -⟩ := Option.map_eq_some_iff.mp hi
    have hsuspend := ((Search.extends_join (s.suspend ⟨c, o, p, link⟩) i s.nextRevisit).trans
      (Search.extends_retain _ 1 c.session)).withTasks ts
    refine .inr (.inr ⟨n, c, link, o, p, ts, ht, ?_, Search.owner?_nextRevisit hsuspend⟩)
    exact (List.Perm.of_eq (Search.parked_retain _ 1 c.session)).trans
      (Search.parked_join (s := s.suspend _) hu s.nextRevisit)
  | exceed => exact .inl (s.parked_modifySession_eq _ (by intro t; rfl))
  | decide => exact .inl (s.parked_modifySession_eq _ (by intro t; rfl))
  | release => exact .inl (s.parked_modifySession_eq _ (by intro t; rfl))
  | @finish i ts u =>
    exact .inl (((s.release i).parked_modifySession_eq i (by intro t; rfl)).trans
      (s.parked_modifySession_eq i (by intro t; rfl)))
  | take | stale | repeated | visit | judge | answerLate | answer | resumeNone | resumeAgain
    | resumeLate | resume | tellLate | tell | decideLate | releaseNone => exact .inl rfl

/-- Only the first task is done, and other tasks may come in its place. They tell nobody. -/
theorem Move.tasks_cons (h : Move g s t) {k : Task} {ts : List Task} (hts : s.tasks = k :: ts) :
    t.told = s.told ∧ ∃ new, t.tasks = new ++ ts ∧ ∀ x ∈ new, x.isTell = false := by
  have hwork {l : List Task} {session : Option SessionId}
      (h : ∃ x, l = [x] ∧ x.session? = some session) : ∀ x ∈ l, x.isTell = false := by
    obtain ⟨x, rfl, hx⟩ := h
    simp [Task.isTell_of_session? hx]
  have hrelease {l : List Task} (session : Option SessionId) (h : ∀ x ∈ l, x.isTell = false) :
      ∀ x ∈ l ++ [.release session], x.isTell = false := by
    simpa [or_imp, forall_and, Task.isTell] using h
  cases h with
  | notify ht | take ht => cases hts.symm.trans ht
  | stale ht | repeated ht | tellLate ht =>
    cases hts.symm.trans ht
    exact ⟨rfl, _, rfl, hrelease _ (l := []) (by simp)⟩
  | @visit j _ _ u ht =>
    cases hts.symm.trans ht
    exact ⟨rfl, _, List.append_cons _ _ _, hrelease _ (hwork (u.tasks_eq j))⟩
  | tell ht =>
    cases hts.symm.trans ht
    exact ⟨rfl, _, List.append_cons _ _ _, hrelease _ (hwork (Reaction.tasks_eq _ _ _ _ _))⟩
  | judge ht | answer ht =>
    cases hts.symm.trans ht
    exact ⟨rfl, _, rfl, hwork (Reaction.tasks_eq _ _ _ _ _)⟩
  | resume ht =>
    cases hts.symm.trans ht
    exact ⟨rfl, [_], rfl, hwork ⟨_, rfl, rfl⟩⟩
  | spawn ht | require ht | inquire ht | join ht =>
    cases hts.symm.trans ht
    exact ⟨Search.told_retain _ _ _, [], rfl, by simp⟩
  | answerLate ht | resumeNone ht | resumeAgain ht | resumeLate ht | exceed ht | decide ht
    | decideLate ht | releaseNone ht | release ht | finish ht =>
    cases hts.symm.trans ht
    exact ⟨rfl, [], rfl, by simp⟩

theorem Move.tail_subset (h : Move g s t) {k : Task} {ts : List Task} (hts : s.tasks = k :: ts) :
    ts ⊆ t.tasks := by
  obtain ⟨-, new, htasks, -⟩ := h.tasks_cons hts
  rw [htasks]
  exact List.subset_append_right new ts

/-- A revisit is resumed once, by work that is linked to it, and goes on unless its session has its
result. -/
theorem Move.resumed_cases (h : Move g s t) {i : RevisitId} {e : RevisitEntry}
    (hi : t.record? i = some e) (hr : e.resumed = true) : s.record? i = some e ∨
      ∃ n c ts, s.tasks = .resume (n + 1) c (some i) :: ts ∧
        s.record? i = some ⟨e.revisit, false⟩ ∧ (s.Settled e.revisit.session ∨
          t.tasks = .execute n e.revisit.toContext e.revisit.parent e.revisit.resume :: ts) := by
  have hsuspend {r : Revisit} (hi : (s.suspend r).record? i = some e) : s.record? i = some e := by
    refine (Search.record?_suspend.mp hi).resolve_right fun ⟨_, he⟩ => ?_
    rw [he] at hr
    cases hr
  have hmark {k : RevisitId} {e' : RevisitEntry} (hk : s.record? k = some e')
      (hr' : e'.resumed = false) (hi : (s.markResumed k).record? i = some e) :
      s.record? i = some e ∨ k = i ∧ e' = ⟨e.revisit, false⟩ := by
    rw [Search.record?_markResumed] at hi
    split at hi
    · next heq =>
      rw [heq, hk] at hi
      cases hi
      exact .inr ⟨heq.symm, by rw [← hr']⟩
    · exact .inl hi
  cases h with
  | @spawn n c =>
    rw [Search.record?, Search.withTasks, Search.push, Search.revisits_retain] at hi
    exact .inl hi
  | @require n c =>
    rw [Search.record?, Search.withTasks, Search.push, Search.revisits_retain] at hi
    exact .inl (hsuspend hi)
  | @inquire n c | @join n c =>
    rw [Search.record?, Search.withTasks, Search.revisits_retain] at hi
    exact .inl (hsuspend hi)
  | answerLate => exact .inl (hsuspend hi)
  | answer => exact .inl (hsuspend hi)
  | @resumeLate n c k ts e' ht hk hr' hs =>
    refine (hmark hk hr' hi).imp_right ?_
    rintro ⟨rfl, rfl⟩
    exact ⟨n, c, ts, ht, hk, .inl hs⟩
  | @resume n c k ts e' ht hk hr' hs =>
    refine (hmark hk hr' hi).imp_right ?_
    rintro ⟨rfl, rfl⟩
    exact ⟨n, c, ts, ht, hk, .inr rfl⟩
  | notify | take | stale | repeated | visit | judge | resumeNone | resumeAgain
    | tellLate | tell | exceed | decide | decideLate | releaseNone | release
    | finish => exact .inl hi

end CostCTL
