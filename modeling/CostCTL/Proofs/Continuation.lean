import CostCTL.Proofs.DepthFirst
import CostCTL.Proofs.Episode

/-!
# No continuation is lost

Depth first, whatever a piece of work leads to is done in one episode, after which the revisit that
it is linked to has been resumed, unless its session is spoilt (`Search.Dispatches`). Windows do not
matter. As in a search without them, this is shown for all pieces of work at once, from the end of
the search backwards. At the end no revisit waits any more for something that it requires, except on
behalf of a session that is spoilt (`Course.not_live`).
-/

namespace CostCTL

open Formula

variable {g : Kripke} {s t u z : Search} {session : Option SessionId} {link : Option RevisitId}
  {order : PendingOrder} {fs : List Formula} {past : Search} {rest : List Job} {Q : Search → Prop}

namespace Search

/-- The worklist is down to `rest` again, or the session has its result. The jobs above `rest` are
then for sessions that have theirs. -/
inductive Restored (session : Option SessionId) (rest : List Job) (s : Search) : Prop where
  | opened (ht : s.tasks = []) (hr : s.resolved = []) (hq : s.queue = rest) (ho : s.Open session)
  | settled {i : SessionId} (dead : List Job) (hi : session = some i) (ht : s.tasks = [])
      (hr : s.resolved = [i]) (hq : s.queue = rest ++ dead) (hd : ∀ j ∈ dead, s.Settled j.session)
      (hs : s.Settled session) (he : s.Spoilt session ∨ ∀ j ∈ s.queue, j.session ≠ session)

/-- One episode leads down to `rest` and to a search with the property. -/
def Proceeds (g : Kripke) (s : Search) (session : Option SessionId) (rest : List Job)
    (Q : Search → Prop) : Prop :=
  ∃ t, s.Episode g session t ∧ t.Restored session rest ∧ Q t

namespace Proceeds

theorem imp {Q' : Search → Prop} (h : s.Proceeds g session rest Q)
    (hQ : ∀ t, s.Episode g session t → Q t → Q' t) : s.Proceeds g session rest Q' := by
  obtain ⟨t, hs, ht, hq⟩ := h
  exact ⟨t, hs, ht, hQ t hs hq⟩

/-- An episode can be made in two. -/
theorem step (hs : s.Episode g session t) (h : t.Proceeds g session rest Q) :
    s.Proceeds g session rest Q := by
  obtain ⟨u, hu, hr, hq⟩ := h
  exact ⟨u, hs.trans hu, hr, hq⟩

end Proceeds

/-! ### The end of a turn -/

theorem Episode.release {i : SessionId} {ts : List Task}
    (hm : Moves g s ((s.release i).withTasks ts)) (k : Option SessionId) :
    s.Episode g k ((s.release i).withTasks ts) :=
  .of_eq hm rfl (fun _ _ _ => Iff.rfl) (fun k _ => s.result?_release i k)
    (fun ho => (s.result?_release i k).symm.trans ho) fun _ _ hm => waiters_release i hm

/-- The last task of a turn releases the session. It gets its result if nothing is outstanding. -/
theorem exists_turnEnd (hc : Course g order fs past s) (ht : s.tasks = [.release session])
    (hr : s.resolved = []) (ho : s.Open session) :
    ∃ t, Move g s t ∧ t.tasks = [] ∧ t.queue = s.queue ∧
      ((t.Open session ∧ t.resolved = [] ∧ ∀ k, s.Episode g k t) ∨
      ∃ i, session = some i ∧ s.work i = 0 ∧ t.resolved = [i] ∧ t.Settled session ∧
        s.Episode g session t) := by
  cases session with
  | none =>
    have hm : Move g s (s.withTasks []) := .releaseNone ht
    exact ⟨_, hm, rfl, rfl, .inl ⟨rfl, hr, fun _ => .quiet (.single hm) rfl rfl rfl⟩⟩
  | some i =>
    obtain ⟨hv, ha⟩ := hc.valid_accounts
    obtain ⟨v, hi, hpend⟩ := Option.map_eq_some_iff.mp ho
    have hout : v.outstanding = s.work i + 1 := by
      rw [ha.balance i v hi, owed, ht]
      simp [Task.releases]
    by_cases hwork : s.work i = 0
    · have hopen : (s.release i).Open (some i) := (s.result?_release i _).trans ho
      have hm : Move g s (((s.release i).complete i v.outcome).withTasks []) :=
        .finish ht hi (by omega) hpend
      have hres (k : Option SessionId) := (s.release i).result?_complete hopen v.outcome k
      refine ⟨_, hm, rfl, rfl, .inr ⟨i, rfl, hwork, congrArg (· ++ [i]) hr, ⟨v.outcome, ?_, ?_⟩,
        .of_eq (.single hm) rfl (fun _ _ _ => Iff.rfl) (fun k hk => ?_) (fun _ => ho)
          (fun m w hm => ?_)⟩⟩
      · exact (hres _).trans (if_pos rfl)
      · rw [Session.outcome]
        cases v.exceeded <;> simp
      · exact (hres k).trans (by rw [if_neg hk, result?_release])
      · obtain ⟨w', hm', hw'⟩ := waiters_release i hm
        obtain ⟨w'', hm'', hw''⟩ := waiters_complete i v.outcome hm'
        exact ⟨w'', hm'', hw''.trans hw'⟩
    · have hm : Move g s ((s.release i).withTasks []) :=
        .release ht hi (by omega) (.inl (by omega))
      exact ⟨_, hm, rfl, rfl, .inl ⟨(s.result?_release i _).trans ho, hr, .release (.single hm)⟩⟩

/-- A session with work left is released and stays open. -/
theorem exists_turnEnd_of_work (hc : Course g order fs past s) (ht : s.tasks = [.release session])
    (hr : s.resolved = []) (ho : s.Open session) (hwork : ∀ i, session = some i → s.work i ≠ 0) :
    ∃ t, Move g s t ∧ t.tasks = [] ∧ t.queue = s.queue ∧ t.Open session ∧ t.resolved = [] ∧
      ∀ k, s.Episode g k t := by
  obtain ⟨t, hm, hts, hq, ⟨ho, hr, hs⟩ | ⟨i, hi, hzero, -⟩⟩ := exists_turnEnd hc ht hr ho
  · exact ⟨t, hm, hts, hq, ho, hr, hs⟩
  · exact absurd hzero (hwork i hi)

/-- With its last task a turn comes to its end. -/
theorem proceeds_release (hp : s.Primed g fs session link) (ht : s.tasks = [.release session])
    {link' : Option RevisitId} (hd : s.Discharged session link') :
    s.Proceeds g session s.queue (·.Discharged session link') := by
  obtain ⟨past, hc⟩ := hp.course
  obtain ⟨t, hm, hts, hq, ⟨ho, hr, hs⟩ | ⟨i, hi, hzero, hr, hset, hs⟩⟩ :=
    exists_turnEnd hc ht hp.resolved hp.opened
  · exact ⟨t, hs session, .opened hts hr hq ho, hd.moves (.single hm)⟩
  · refine ⟨t, hs, .settled [] hi hts hr (by rw [hq, List.append_nil]) (by simp) hset
      (.inr fun j hj hji => ?_), hd.moves (.single hm)⟩
    exact work_ne_zero (hq ▸ hj) (hji.trans hi) hzero

/-! ### Failing -/

/-- A violation that is not about the budget settles the session. -/
theorem proceeds_decide {i : SessionId} {x : Counterexample} (hp : s.Primed g fs (some i) link)
    (ht : s.tasks = [.fail (some i) x, .release (some i)]) (hx : x.violation.isBudget = false) :
    s.Proceeds g (some i) s.queue (·.Discharged (some i) link) := by
  obtain ⟨past, hc⟩ := hp.course
  have hfail : Move g s ((s.complete i (.fail x)).withTasks [.release (some i)]) :=
    .decide ht hx hp.opened
  have hres (k : Option SessionId) := s.result?_complete hp.opened (.fail x) k
  obtain ⟨v, hi, hout⟩ := (hc.move hfail).ready i rfl
  have hresult : v.result = .fail x := by
    obtain ⟨v', hi', hv'⟩ := Option.map_eq_some_iff.mp ((hres (some i)).trans (if_pos rfl))
    cases hi.symm.trans hi'
    exact hv'
  have hm : Move g _ _ := .release rfl hi hout (.inr (by rw [hresult]; simp))
  have hfailed (k : Option SessionId) : Search.result? ((((s.complete i (.fail x)).withTasks
      [.release (some i)]).release i).withTasks []) k =
      if k = some i then some (.fail x) else s.result? k :=
    (result?_release _ i k).trans (hres k)
  have hspoilt : Spoilt ((((s.complete i (.fail x)).withTasks
      [.release (some i)]).release i).withTasks []) (some i) :=
    .inl ⟨x, (hfailed _).trans (if_pos rfl)⟩
  refine ⟨_, .trans (.of_eq (.single hfail) rfl (fun _ _ _ => Iff.rfl) (fun k hk => ?_)
    (fun _ => hp.opened) (fun _ _ hm => waiters_complete i (.fail x) hm)) (.release (.single hm) _),
    .settled [] rfl rfl (congrArg (· ++ [i]) hp.resolved) (List.append_nil _).symm (by simp)
      ⟨.fail x, (hfailed _).trans (if_pos rfl), by simp⟩ (.inl hspoilt), .inl hspoilt⟩
  exact (hres k).trans (if_neg hk)

theorem Episode.exceed {i : SessionId} {x : Counterexample} {ts : List Task}
    (hm : Move g s ((s.exceed i x).withTasks ts)) (k : Option SessionId) :
    s.Episode g k ((s.exceed i x).withTasks ts) :=
  .of_eq (.single hm) rfl (fun _ _ _ => Iff.rfl) (fun k _ => s.result?_exceed i x k)
    (fun ho => (s.result?_exceed i x k).symm.trans ho)
    fun _ _ hm => waiters_modifySession
      (φ := fun t => { t with exceeded := t.exceeded.or (some x) }) (fun _ => rfl) hm

theorem spoilt_exceed {i : SessionId} {x : Counterexample} {v : Session}
    (hi : s.session? i = some v) (ts : List Task) :
    ((s.exceed i x).withTasks ts).Spoilt (some i) := by
  refine .inr ⟨i, { v with exceeded := v.exceeded.or (some x) }, rfl, ?_, by simp⟩
  refine (s.session?_modifySession i i _).trans ?_
  rw [if_pos rfl, hi]
  rfl

/-- A violation spoils the session. The requirement has none if the search comes to its end. -/
theorem proceeds_fail (hz : z.Idle) (hm : Moves g s z) (hp : s.Primed g fs session link)
    {x : Counterexample} (ht : s.tasks = [.fail session x, .release session]) :
    s.Proceeds g session s.queue (·.Discharged session link) := by
  cases session with
  | none =>
    have hx : s.Halts g (.refuted x) := .refuted ht
    obtain rfl := (show s.Ends g from .inr ⟨x, hx⟩).eq_of_moves hm
    exact absurd hx hz.not_refuted
  | some i =>
    cases hx : x.violation.isBudget with
    | false => exact proceeds_decide hp ht hx
    | true =>
      have hm : Move g s ((s.exceed i x).withTasks [.release (some i)]) := .exceed ht hx
      have hs : s.Episode g (some i) _ := .exceed hm _
      obtain ⟨v, hi, -⟩ := Option.map_eq_some_iff.mp hp.opened
      have hopen := (s.result?_exceed i x _).trans hp.opened
      exact .step hs (proceeds_release (hp.episode hs hopen hp.resolved) rfl
        (.inl (spoilt_exceed hi _)))

/-! ### All that comes later -/

/-- The jobs are for the session, with the link, or for sessions that have their results. -/
def Queued (session : Option SessionId) (link : Option RevisitId) (js : List Job) (s : Search) :
    Prop :=
  ∀ j ∈ js, s.Settled j.session ∨ (j.session = session ∧ j.link = link ∧ s.ClearFor j)

theorem Queued.episode {js : List Job} {k : Option SessionId} (h : s.Queued session link js)
    (hs : s.Episode g k t) : t.Queued session link js := fun j hj =>
  (h j hj).imp hs.moves.extends.settled (And.imp_right (And.imp_right (·.episode hs)))

/-- Whatever the search is at takes one episode, in which the link is resumed. -/
structure Dispatches (g : Kripke) (fs : List Formula) (s : Search) : Prop where
  todo : ∀ {n : Nat} {c : Context} {link : Option RevisitId} {o : Obligation},
    s.tasks = [.execute n c link o, .release c.session] → s.Primed g fs c.session link →
    s.ClearOf c link o → s.Proceeds g c.session s.queue (·.Discharged c.session link)
  done : ∀ {n : Nat} {c : Context} {link : Option RevisitId},
    s.tasks = [.resume n c link, .release c.session] → s.Primed g fs c.session link →
    s.Proceeds g c.session s.queue (·.Discharged c.session link)
  jobs : ∀ {session : Option SessionId} {link : Option RevisitId} {rest js : List Job},
    s.tasks = [] → s.queue = rest ++ js → s.Primed g fs session link → s.Queued session link js →
    s.Proceeds g session rest fun t => ∀ j ∈ js, j.session = session → t.Discharged session link

/-- The search comes to its end, and whatever it comes to before takes one episode. -/
structure Outlook (g : Kripke) (fs : List Formula) (s z : Search) : Prop where
  idle : z.Idle
  moves : Moves g s z
  later : ∀ m t, Move g s m → Moves g m t → Moves g t z → t.Dispatches g fs

namespace Outlook

variable {n : Nat} {c : Context} {o : Obligation}

theorem exists_move (h : s.Outlook g fs z) {k : Task} {ts : List Task} (ht : s.tasks = k :: ts) :
    ∃ m, Move g s m := by
  have hz := h.moves
  cases hz with
  | step first => exact ⟨_, first⟩
  | refl => cases h.idle.1.symm.trans ht

theorem moves_of (h : s.Outlook g fs z) (hv : s.Valid g) (hm : Moves g s t) : Moves g t z :=
  (show z.Ends g from .inl h.idle).moves hv hm h.moves

theorem dispatches (h : s.Outlook g fs z) (hv : s.Valid g) {m : Search} (hm : Move g s m)
    (hmt : Moves g m t) : t.Dispatches g fs :=
  h.later m t hm hmt (h.moves_of hv (.step hm hmt))

/-- What was found out of a precondition tells how to go on. -/
theorem react (h : s.Outlook g fs z) (hv : s.Valid g) {m : Search} {p : Precondition}
    {finding : Finding} (hm : Move g s m) (hmt : Moves g m t) (hp : t.Primed g fs c.session link)
    (hcl : t.ClearOf c link (.revisit o p))
    (ht : t.tasks = (p.react c finding).tasks n c link o ++ [.release c.session]) :
    t.Proceeds g c.session t.queue (·.Discharged c.session link) := by
  generalize p.react c finding = reaction at ht
  cases reaction with
  | proceed => exact (h.dispatches hv hm hmt).todo ht hp hcl
  | met => exact (h.dispatches hv hm hmt).done ht hp
  | fail x => exact proceeds_fail h.idle (h.moves_of hv (.step hm hmt)) hp ht

/-- Jobs for sessions that have their result are dropped. -/
theorem drain (h : s.Outlook g fs z) (hv : s.Valid g) {m : Search} {dead : List Job}
    (hm : Move g s m) (hmt : Moves g m t) (hp : t.Primed g fs session link)
    (hproc : t.Proceeds g session (rest ++ dead) (·.Discharged session link))
    (hdead : ∀ j ∈ dead, t.Settled j.session) :
    t.Proceeds g session rest (·.Discharged session link) := by
  obtain ⟨u, hu, hret, hd⟩ := hproc
  cases hret with
  | opened hts hr hq ho =>
    refine .step hu (((h.dispatches hv hm (hmt.trans hu.moves)).jobs hts hq (hp.episode hu ho hr)
      fun j hj => .inl (hu.moves.extends.settled (hdead j hj))).imp fun u' hu' _ => ?_)
    exact hd.moves hu'.moves
  | settled dead' hi hts hr hq hd' hs he =>
    refine ⟨u, hu, .settled (dead ++ dead') hi hts hr (by rw [hq, List.append_assoc])
      (fun j hj => ?_) hs he, hd⟩
    rcases List.mem_append.mp hj with hj | hj
    · exact hu.moves.extends.settled (hdead j hj)
    · exact hd' j hj

theorem unfold (h : s.Outlook g fs z) (hv : s.Valid g) {j : Job} (hm : Move g s t) (u : Unfolding)
    (hp : t.Primed g fs j.session j.link)
    (hcl : ∀ o, u = .obligation o → t.ClearOf j.toContext j.link o)
    (ht : t.tasks = u.tasks j ++ [.release j.session]) :
    t.Proceeds g j.session t.queue (·.Discharged j.session j.link) := by
  cases u with
  | pass => exact (h.dispatches hv hm (.refl t)).done ht hp
  | fail v => exact proceeds_fail h.idle (h.moves_of hv (.single hm)) hp ht
  | obligation o => exact (h.dispatches hv hm (.refl t)).todo ht hp (hcl o rfl)

/-- When a revisit is resumed, the rest of it is done at once. -/
theorem proceeds_resume (h : s.Outlook g fs z) {i : RevisitId} {r : Revisit}
    (hp : s.Primed g fs r.session (some i)) (hi : s.record? i = some ⟨r, false⟩)
    (hk : r.precondition.kind = .required)
    (hm : Move g s ((s.markResumed i).withTasks
      [.execute n r.toContext r.parent r.resume, .release r.session])) :
    s.Proceeds g r.session s.queue (·.Discharged r.session (some i)) := by
  have hcl : s.ClearOf r.toContext r.parent r.resume := by
    by_cases hsp : s.Spoilt r.session
    · exact .inl (.inl hsp)
    · exact hp.clear i r ⟨hi, hk, hsp⟩
  obtain ⟨u, hu, hret, hd⟩ := (h.dispatches hp.valid hm (.refl _)).todo rfl
    (hp.resume hi hk rfl hm) (hcl.mono (.single hm) fun k hk _ _ => .inl hk)
  refine ⟨u, .prepend (.single hm) hu (fun k hk => .inl hk)
    (fun i' r' _ h' => (unresumed_markResumed.mp h').1) (fun i' r' h' => ?_) (fun _ => rfl)
    (fun m v hm => ⟨v, hm, rfl⟩), hret,
    .inr ((resumed_markResumed hi _).extends hu.moves.extends)⟩
  by_cases hne : i' = i
  · subst hne
    cases hi.symm.trans h'
    exact .inr hd
  · exact .inl (unresumed_markResumed.mpr ⟨h', hne⟩)

/-- What is done resumes its link, once. -/
theorem proceeds_done (h : s.Outlook g fs z) (hp : s.Primed g fs c.session link)
    (ht : s.tasks = [.resume n c link, .release c.session]) :
    s.Proceeds g c.session s.queue (·.Discharged c.session link) := by
  obtain ⟨past, hc⟩ := hp.course
  obtain ⟨m, hm⟩ := h.exists_move ht
  have hend (hm : Move g s (s.withTasks [.release c.session])) (hr : s.Resumed link) :
      s.Proceeds g c.session s.queue (·.Discharged c.session link) := by
    have hs : s.Episode g c.session (s.withTasks [.release c.session]) :=
      .quiet (.single hm) rfl rfl rfl
    exact .step hs (proceeds_release (hp.episode hs hp.opened hp.resolved) rfl
      (.inr (hr.extends hm.extends)))
  have hlinked : s.Linked c.session link := (hc.inScope.head ht _ rfl).2
  rcases hm.of_resume ht with ⟨rfl, rfl⟩ | ⟨n', i, e, rfl, rfl, hi, hcase⟩
  · exact hend hm fun i hi => by cases hi
  obtain ⟨e', he', hsession, hkind⟩ := hlinked i rfl
  obtain rfl := Option.some.inj (hi.symm.trans he')
  rcases hcase with ⟨hres, rfl⟩ | ⟨-, hs, -⟩ | ⟨hres, -, rfl⟩
  · exact hend hm fun k hk => ⟨e, Option.some.inj hk ▸ hi, hres⟩
  · rw [hsession] at hs
    exact absurd hp.opened hs.not_open
  obtain ⟨r, b⟩ := e
  obtain rfl : b = false := hres
  have hsession : r.session = c.session := hsession
  rw [← hsession] at hp hm ⊢
  exact h.proceeds_resume hp hi hkind hm

/-! ### Obligations -/

section Todo

variable (h : s.Outlook g fs z) (hp : s.Primed g fs c.session link)
include h hp

theorem proceeds_spawn (hcl : s.ClearOf c link o)
    (ht : s.tasks = [.execute n c link o, .release c.session]) (ho : ∀ o' p, o ≠ .revisit o' p) :
    s.Proceeds g c.session s.queue (·.Discharged c.session link) := by
  obtain ⟨past, hc⟩ := hp.course
  obtain ⟨m, hm⟩ := h.exists_move ht
  obtain ⟨jobs, hj, rfl⟩ := hm.of_spawn ht ho
  have hnode : c.node.index < g.size := (hp.valid.head ht).1.node
  have hsession := Obligation.session_jobs hj
  have hs : s.Episode g c.session ((s.push c.session jobs).withTasks [.release c.session]) :=
    .push hm
  have hopen : ((s.push c.session jobs).withTasks [.release c.session]).Open c.session :=
    (s.result?_push _ _ _).trans hp.opened
  -- its jobs are still to be done, so the session stays open
  obtain ⟨j, hjm⟩ := List.exists_mem_of_ne_nil _ (Obligation.jobs_ne_nil hnode hj)
  obtain ⟨t, hmt, hts, hq, hto, htr, hst⟩ := exists_turnEnd_of_work (hc.move hm) rfl
    ((resolved_retain _ _ _).trans hp.resolved) hopen
    fun i hi => work_ne_zero (List.mem_append_right _ hjm) ((hsession j hjm).trans hi)
  have hs' := hs.trans (hst c.session)
  refine .step hs' (((h.dispatches hp.valid hm (.single hmt)).jobs hts hq (hp.episode hs' hto htr)
    fun j hjm => .inr ⟨hsession j hjm, Obligation.link_jobs hj j hjm,
      (hcl.spawn hj j hjm).episode hs'⟩).imp fun u _ hu => ?_)
  exact hu j hjm (hsession j hjm)

variable {p : Precondition} (hcl : s.ClearOf c link (.revisit o p))
include hcl

theorem proceeds_answer {finding : Finding} (hk : p.kind ≠ .required)
    (hm : Move g s ((s.suspend ⟨c, o, p, link⟩).withTasks
      ((p.react c finding).tasks n c link o ++ [.release c.session]))) :
    s.Proceeds g c.session s.queue (·.Discharged c.session link) := by
  have hs : s.Episode g c.session _ := .suspend hk hm
  exact .step hs (h.react hp.valid hm (.refl _) (hp.episode hs hp.opened hp.resolved)
    (Unbarred.episode hcl hs) rfl)

variable (ht : s.tasks = [.execute n c link (.revisit o p), .release c.session])
include ht

theorem proceeds_judge (hstate : p.formula.isState = true) :
    s.Proceeds g c.session s.queue (·.Discharged c.session link) := by
  obtain ⟨m, hm⟩ := h.exists_move ht
  obtain ⟨node, judgement, -, -, rfl⟩ := hm.of_judge ht hstate
  have hs : s.Episode g c.session _ := .quiet (.single hm) rfl rfl rfl
  exact .step hs (h.react hp.valid hm (.refl _) (hp.episode hs hp.opened hp.resolved)
    (Unbarred.episode hcl hs) rfl)

/-- What is required is looked at first, and resumes the revisit. -/
theorem proceeds_require (hstate : p.formula.isState = false) (hk : p.kind = .required) :
    s.Proceeds g c.session s.queue (·.Discharged c.session link) := by
  obtain ⟨past, hc⟩ := hp.course
  obtain ⟨m, hm⟩ := h.exists_move ht
  obtain rfl : m = s.required c link o p [.release c.session] := hm.of_require ht hstate hk
  have hp' := hp.require hcl hm
  obtain ⟨t, hmt, hts, hq, hto, htr, hst⟩ := exists_turnEnd_of_work (hc.move hm) rfl
    hp'.resolved hp'.opened
    fun i hi => work_ne_zero (List.mem_append_right _ List.mem_cons_self) hi
  have hqueued : t.Queued c.session (some s.nextRevisit) [c.demand p.formula s.nextRevisit] :=
    List.forall_mem_singleton.mpr (.inr ⟨rfl, rfl, clearFor_demand hc (hst c.session)⟩)
  obtain ⟨u, hu, hret, hd⟩ := (h.dispatches hp.valid hm (.single hmt)).jobs hts hq
    (hp'.episode (hst _) hto htr) hqueued
  have hd : u.Discharged c.session (some s.nextRevisit) := List.forall_mem_singleton.mp hd rfl
  have hru := (hst c.session).trans hu
  refine ⟨u, .prepend (.single hm) hru (fun k hk => .inl (visited_required ▸ hk))
    (fun i r hi hi' => ?_) (fun i r hi => .inl (record?_required.mpr (.inl hi)))
    result?_required (fun i v hi => waiters_required hi), hret, ?_⟩
  · refine (record?_required.mp hi').resolve_right ?_
    rintro ⟨rfl, rfl⟩
    exact hi.not_discharged hd
  · rcases hd with hsp | hres
    · exact .inl hsp
    · exact hru.resumed _ _ (record?_required.mpr (.inr ⟨rfl, rfl⟩)) hk hres

omit hcl in
/-- A session that is opened is carried through until it has its result. -/
theorem exists_session (hk : p.kind ≠ .required)
    (hm : Move g s (s.inquired c link o p [.release c.session])) :
    ∃ u dead, (s.inquired c link o p [.release c.session]).Episode g (some s.nextSession) u ∧
      u.tasks = [] ∧ u.resolved = [s.nextSession] ∧ u.queue = s.queue ++ dead ∧
      (∀ j ∈ dead, u.Settled j.session) ∧ u.Settled (some s.nextSession) := by
  obtain ⟨past, hc⟩ := hp.course
  obtain ⟨-, root, hroot, -, -, hsize, -⟩ := (hc.inScope.head ht _ rfl).2
  have hv := hp.valid
  have hp' := hp.inquire hroot hsize hk hm
  obtain ⟨t, hmt, hts, hq, hto, htr, hst⟩ := exists_turnEnd_of_work (hc.move hm) rfl
    hp'.resolved ((open_inquired hv).mpr (.inl hp.opened)) fun i hi => work_inquired hi
  have hopen := (hst none).kept _ (by simp) hp'.opened
  have hcl' : t.ClearFor { c.inquiry p.formula with session := some s.nextSession } :=
    .inl discharged_none
  obtain ⟨u, hu, hret, -⟩ := (h.dispatches hp.valid hm (.single hmt)).jobs hts
    (hq.trans queue_inquired) (hp'.episode (hst _) hopen htr)
    (List.forall_mem_singleton.mpr (.inr ⟨rfl, rfl, hcl'⟩))
  have hru := (hst _).trans hu
  cases hret with
  | opened hts hr hq ho =>
    obtain ⟨j, hj, hjs⟩ := (hp'.episode hru ho hr).exists_job hts
    rw [hq] at hj
    have hknown := (hv.queue j hj).session
    rw [show j.toContext.session = some s.nextSession from hjs] at hknown
    exact absurd (not_open_nextSession hv) hknown
  | settled dead hi hts hr hq hd hs =>
    cases hi
    exact ⟨u, dead, hru, hts, hr, hq, hd, hs⟩

/-- The obligation that waits for a session goes on when the session has its result. -/
theorem proceeds_inquire (hk : p.kind ≠ .required)
    (hm : Move g s (s.inquired c link o p [.release c.session])) :
    s.Proceeds g c.session s.queue (·.Discharged c.session link) := by
  have hv := hp.valid
  obtain ⟨u, dead, hu, hts, hr, hq, hd, hset⟩ := h.exists_session hp ht hk hm
  obtain ⟨v₀, hi₀, hw₀⟩ : ∃ v, (s.inquired c link o p [.release c.session]).session? s.nextSession =
    some v ∧ _ := waiters_nextSession hv
  obtain ⟨v, hi, hw⟩ := hu.waiters _ _ hi₀
  obtain ⟨b, hrec, -⟩ := hu.moves.extends.entry _ _ (record?_inquired.mpr (.inr ⟨rfl, rfl⟩))
  have hpend : v.result ≠ .pending := fun hpend => hset.not_open <| by
    rw [Open, result?, hi, Option.map_some, hpend]
  have hne : c.session ≠ some s.nextSession := fun hne => by
    cases (not_open_nextSession hv).symm.trans (hne ▸ hp.opened)
  have hopen : u.Open c.session := hu.kept _ hne ((open_inquired hv).mpr (.inl hp.opened))
  obtain ⟨finding, t, -, hut, htt, hqt, hrt, hvis, hrev, -, hres, hses⟩ := exists_told (g := g)
    hts hr hi (by rw [hw, hw₀]; rfl) hpend hrec hopen
  have hs : s.Episode g c.session t :=
    .of_session hv hk hm hu hset.not_open hut hvis hrev hres hses
  have hp' := hp.episode hs ((hres _).trans hopen) hrt
  have hproc := h.react hv hm (hu.moves.trans hut) hp' (Unbarred.episode hcl hs) htt
  rw [hqt, hq] at hproc
  exact .step hs (h.drain hv hm (hu.moves.trans hut) hp' hproc
    fun j hj => hut.extends.settled (hd j hj))

/-- An obligation with a precondition takes one episode. -/
theorem proceeds_revisit : s.Proceeds g c.session s.queue (·.Discharged c.session link) := by
  obtain ⟨past, hc⟩ := hp.course
  cases hstate : p.formula.isState with
  | true => exact h.proceeds_judge hp hcl ht hstate
  | false =>
    by_cases hk : p.kind = .required
    · exact h.proceeds_require hp hcl ht hstate hk
    obtain ⟨m, hm⟩ := h.exists_move ht
    rcases hm.of_ask ht hstate hk with ⟨-, rfl⟩ | ⟨i, hkey, hcase⟩
    · exact h.proceeds_inquire hp hcl ht hk hm
    rcases hcase with ⟨ho, -⟩ | ⟨-, hs, -⟩ | ⟨v, finding, -, -, -, rfl⟩
    · -- sessions that are open are on larger formulas
      obtain ⟨-, root, hroot, -, -, hsize, -⟩ := (hc.inScope.head ht _ rfl).2
      exact absurd hsize (Nat.not_lt.mpr (hp.least i _ root ho hkey hroot))
    · exact absurd hp.opened hs.not_open
    · exact h.proceeds_answer hp hcl hk hm

end Todo

theorem proceeds_todo (h : s.Outlook g fs z) (hp : s.Primed g fs c.session link)
    (hcl : s.ClearOf c link o) (ht : s.tasks = [.execute n c link o, .release c.session]) :
    s.Proceeds g c.session s.queue (·.Discharged c.session link) := by
  cases o with
  | revisit o p => exact h.proceeds_revisit hp hcl ht
  | here | successors | step | constrain => exact h.proceeds_spawn hp hcl ht (by simp)

/-! ### Jobs -/

/-- When the work that a visit led to is done, the visit is discharged. -/
theorem proceeds_visit {j : Job} {node : Node} {u : Unfolding} (h : s.Outlook g fs z)
    (hp : s.Primed g fs j.session j.link) (hcl : s.ClearFor j)
    (hf : j.formula.isUniversal = true) (hu : j.formula.unfold (j.position node) = .ok u)
    (hm : Move g s { s with
      visited := s.visited ++ [j.visitKey]
      tasks := u.tasks j ++ [.release j.session] }) :
    s.Proceeds g j.session s.queue (·.Discharged j.session j.link) := by
  obtain ⟨t, hs, hret, hd⟩ := h.unfold hp.valid hm u (hp.visit hm)
    (fun o ho => ClearFor.visit hf (ho ▸ hu) hcl hm rfl) rfl
  refine ⟨t, .prepend (.single hm) hs (fun k hk => ?_) (fun i r _ hi => hi)
    (fun i r hi => .inl hi) (fun _ => rfl) (fun i v hi => ⟨v, hi, rfl⟩), hret, hd⟩
  rcases List.mem_append.mp hk with hk | hk
  · exact .inl hk
  · exact .inr (List.mem_singleton.mp hk ▸ hd)

/-- A job that is taken makes its visit, unless there is a discharged one. -/
theorem proceeds_job {j : Job} (h : s.Outlook g fs z) (hp : s.Primed g fs j.session j.link)
    (hcl : s.ClearFor j) (ht : s.tasks = [.process j]) :
    s.Proceeds g j.session s.queue (·.Discharged j.session j.link) := by
  obtain ⟨past, hc⟩ := hp.course
  obtain ⟨m, hm⟩ := h.exists_move ht
  rcases hm.of_process ht with ⟨hs | ⟨-, hvisited⟩, rfl⟩ | ⟨-, -, node, u, -, hu, rfl⟩
  · exact absurd hp.opened hs.not_open
  · have hs : s.Episode g j.session (s.withTasks [.release j.session]) :=
      .quiet (.single hm) rfl rfl rfl
    exact .step hs (proceeds_release (hp.episode hs hp.opened hp.resolved) rfl
      ((hcl.discharged hvisited).moves (.single hm)))
  · have hf := (hc.reached.head ht _ rfl).2.1.isUniversal (isUniversal_universal _)
    exact h.proceeds_visit hp hcl hf hu hm

theorem move (h : s.Outlook g fs z) (hv : s.Valid g) (hm : Move g s t) : t.Outlook g fs z :=
  ⟨h.idle, h.moves_of hv (.single hm), fun _ t' hm' hmt => h.later _ t' hm (.step hm' hmt)⟩

/-- A job for a session that has its result is dropped. -/
theorem exists_drop {j : Job} (hc : Course g order fs past s) (ht : s.tasks = [.process j])
    (hs : s.Settled j.session) :
    ∃ t, Moves g s t ∧ t.tasks = [] ∧ t.queue = s.queue ∧ t.resolved = s.resolved ∧
      (∀ k, t.result? k = s.result? k) ∧ ∀ k, s.Episode g k t := by
  have hstale : Move g s (s.withTasks [.release j.session]) := .stale ht hs
  obtain ⟨i, hi⟩ : ∃ i, j.session = some i := by
    cases hj : j.session with
    | none =>
      rw [hj] at hs
      exact absurd rfl hs.not_open
    | some i => exact ⟨i, rfl⟩
  rw [hi] at hstale hs
  obtain ⟨v, hiv, hout⟩ := (hc.move hstale).ready i rfl
  have hpend : v.result ≠ .pending := fun hpend => hs.not_open <| by
    rw [Open, result?, show s.session? i = some v from hiv, Option.map_some, hpend]
  have hrelease : Move g _ _ := .release rfl hiv hout (.inr hpend)
  exact ⟨_, .step hstale (.single hrelease), rfl, rfl, rfl, fun k => s.result?_release i k, fun k =>
    .trans (.quiet (.single hstale) rfl rfl rfl) (.release (.single hrelease) k)⟩

section Jobs

variable {j : Job} {js : List Job} (h : s.Outlook g fs z)
include h

/-- After a job that is dropped, the others are done. -/
theorem proceeds_dropped (hp : s.Primed g fs session link) (hjs : s.Queued session link js)
    (hdead : s.Settled j.session)
    (hm : Move g s { s with queue := rest ++ js, tasks := [.process j] }) :
    s.Proceeds g session rest
      fun t => ∀ j ∈ js, j.session = session → t.Discharged session link := by
  obtain ⟨past, hc⟩ := hp.course
  obtain ⟨t, hmt, htt, hqt, hrt, hres, hst⟩ := exists_drop (hc.move hm) rfl hdead
  have hs : s.Episode g session t := .trans (.quiet (.single hm) rfl rfl rfl) (hst session)
  have hopen : t.Open session := (hres session).trans hp.opened
  exact .step hs ((h.dispatches hp.valid hm hmt).jobs htt hqt
    (hp.episode hs hopen (hrt.trans hp.resolved)) (hjs.episode hs))

/-- After a job that is done, the others are done, unless the session has its result. -/
theorem proceeds_last (hp : s.Primed g fs j.session j.link) (hjs : s.Queued j.session j.link js)
    (hcl : s.ClearFor j) (hm : Move g s { s with queue := rest ++ js, tasks := [.process j] }) :
    s.Proceeds g j.session rest (·.Discharged j.session j.link) := by
  have hs : s.Episode g j.session { s with queue := rest ++ js, tasks := [.process j] } :=
    .quiet (.single hm) rfl rfl rfl
  obtain ⟨u, hu, hret, hd⟩ := (h.move hp.valid hm).proceeds_job
    (hp.episode hs hp.opened hp.resolved) (Unbarred.episode hcl hs) rfl
  have hsu := hs.trans hu
  cases hret with
  | opened htu hru hqu hou =>
    exact .step hsu (((h.dispatches hp.valid hm hu.moves).jobs htu hqu (hp.episode hsu hou hru)
      (hjs.episode hsu)).imp fun u' hu' _ => hd.moves hu'.moves)
  | settled dead hi htu hru hqu hdu hset hend =>
    refine ⟨u, hsu, .settled (js ++ dead) hi htu hru (hqu.trans (List.append_assoc _ _ _))
      (fun j' hj' => ?_) hset hend, hd⟩
    rcases List.mem_append.mp hj' with hj' | hj'
    · exact (hjs.episode hsu j' hj').elim id fun hlive => hlive.1 ▸ hset
    · exact hdu j' hj'

/-- Jobs are done one after the other, the last one first. -/
theorem proceeds_jobs (ht : s.tasks = []) (hq : s.queue = rest ++ js)
    (hp : s.Primed g fs session link) (hjs : s.Queued session link js) :
    s.Proceeds g session rest
      fun t => ∀ j ∈ js, j.session = session → t.Discharged session link := by
  obtain ⟨past, hc⟩ := hp.course
  rcases List.eq_nil_or_concat' js with rfl | ⟨js, j, rfl⟩
  · refine ⟨s, .refl s, .opened ht hp.resolved (hq.trans (List.append_nil _)) hp.opened, ?_⟩
    exact fun j hj => by cases hj
  have htakes : s.Takes j (rest ++ js) := by
    rw [Takes, hc.order_eq]
    exact hq.trans (List.append_assoc _ _ _).symm
  have hm : Move g s { s with queue := rest ++ js, tasks := [.process j] } :=
    .take ht hp.resolved htakes
  have hothers : s.Queued session link js := fun j' hj' => hjs j' (List.mem_append_left _ hj')
  rcases hjs j (List.mem_append_right _ List.mem_cons_self) with hdead | ⟨rfl, rfl, hcl⟩
  · simp only [List.forall_mem_append, List.forall_mem_singleton]
    refine (h.proceeds_dropped hp hothers hdead hm).imp fun t _ hall => ⟨hall, fun hsj => ?_⟩
    rw [hsj] at hdead
    exact absurd hp.opened hdead.not_open
  · exact (h.proceeds_last hp hothers hcl hm).imp fun t _ hd _ _ _ => hd

end Jobs

end Outlook

/-- Whatever a search comes to before its end takes one episode. -/
theorem dispatches (hz : z.Idle) (hv : s.Valid g) (hm : Moves g s z) : s.Dispatches g fs := by
  have hze : z.Ends g := .inl hz
  refine hze.induction (P := fun s => s.Dispatches g fs) hv hm fun s hm later => ?_
  have h : s.Outlook g fs z := ⟨hz, hm, later⟩
  exact ⟨fun ht hp hcl => h.proceeds_todo hp hcl ht, fun ht hp => h.proceeds_done hp ht,
    h.proceeds_jobs⟩

/-! ### From requirement to requirement -/

/-- The first jobs of a requirement can be done, if no revisit is left of those before. -/
theorem primed_seed {f : Formula} (hlive : ∀ i r, ¬ s.Live i r)
    (hc : Course g .depthFirst fs past s) (hs : s.Idle) :
    (s.seed g f.universal).Primed g (f :: fs) none none := by
  have hnone (i : RevisitId) (r : Revisit) : ¬ (s.seed g f.universal).Live i r :=
    fun hi => hlive i r ⟨hi.record, hi.kind, hi.sound⟩
  refine ⟨⟨s, hc.seed hs f⟩, hs.2.1, rfl, fun i k root hi _ _ => ?_,
    fun i r hi => absurd hi (hnone i r), fun i r hi => absurd hi (hnone i r),
    fun i r _ _ hi => absurd hi (hnone i r)⟩
  obtain ⟨v, hiv, hpend⟩ := Option.map_eq_some_iff.mp hi
  exact absurd hpend (hc.inScope.settled_of_idle hc.valid_accounts.1 hc.valid_accounts.2 hs hiv)

end Search

/-- Depth first, when nothing is left to do, every revisit that required something was resumed,
unless its session is spoilt. -/
theorem Course.not_live (h : Course g .depthFirst fs past s) (hs : s.Idle) (i : RevisitId)
    (r : Revisit) : ¬ s.Live i r := by
  induction fs generalizing past s i r with
  | nil =>
    obtain ⟨-, rfl⟩ := h.eq_start
    intro hl
    obtain ⟨n, -, hn⟩ := Numbered.get?_eq_some_iff.mp hl.record
    cases hn
  | cons f fs ih =>
    obtain ⟨hidle, ⟨_, hc⟩, hmoves⟩ := h.of_cons
    have hp := Search.primed_seed (f := f) (ih hc hidle) hc hidle
    have hq : (past.seed g f.universal).queue =
        [] ++ g.initial.toList.map (Job.root · f.universal) := by
      rw [Search.seed, hidle.2.2]
    have hqueued : (past.seed g f.universal).Queued none none
        (g.initial.toList.map (Job.root · f.universal)) := fun j hj => by
      obtain ⟨i, -, rfl⟩ := List.mem_map.mp hj
      exact .inr ⟨rfl, rfl, .inl Search.discharged_none⟩
    obtain ⟨t, hst, hret, -⟩ := (Search.dispatches hs hp.valid hmoves).jobs hidle.1 hq hp hqueued
    cases hret with
    | settled _ hi => cases hi
    | opened ht hr hq ho =>
      -- nothing is left to do, so this is the end
      have hend : s.Ends g := .inl hs
      obtain rfl := hend.unique (.inl ⟨ht, hr, hq⟩) hp.valid hmoves hst.moves
      intro hl
      have hl := hst.live i r hl
      exact ih hc hidle i r ⟨hl.record, hl.kind, hl.sound⟩

end CostCTL
