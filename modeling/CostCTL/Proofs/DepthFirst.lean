import CostCTL.Proofs.Stretch

/-!
# Depth-first searches

Depth first, whatever a piece of work leads to is done before anything that was on the worklist
already. So a piece of work takes one stretch, after which it is served, unless its session or the
whole search has failed (`Search.Carries`). This is shown for all pieces of work at once, from the
end of the search backwards.
-/

namespace CostCTL

open Formula

variable {g : Kripke} {s t u z : Search} {session : Option SessionId} {link : Option RevisitId}
  {order : PendingOrder} {fs : List Formula} {past : Search} {rest : List Job} {Q : Search → Prop}

namespace Search

/-- The session passed, and none of its jobs are left. -/
def Passed (s : Search) (session : Option SessionId) : Prop :=
  s.result? session = some .pass ∧ ∀ j ∈ s.queue, j.session ≠ session

/-- The worklist is down to `rest` again, or the session has its result. The jobs above `rest` are
then for sessions that have theirs. -/
inductive Returned (session : Option SessionId) (rest : List Job) (s : Search) : Prop where
  | opened (ht : s.tasks = []) (hr : s.resolved = []) (hq : s.queue = rest) (ho : s.Open session)
  | settled {i : SessionId} (dead : List Job) (hi : session = some i) (ht : s.tasks = [])
      (hr : s.resolved = [i]) (hq : s.queue = rest ++ dead) (hd : ∀ j ∈ dead, s.Settled j.session)
      (hs : s.Failed session ∨ s.Passed session)

theorem settled_of_ended (h : s.Failed session ∨ s.Passed session) : s.Settled session := by
  rcases h with ⟨x, hx⟩ | ⟨hpass, -⟩
  · exact ⟨_, hx, by simp⟩
  · exact ⟨_, hpass, by simp⟩

/-- The requirement is refuted, and rightly so. -/
def Refuted (g : Kripke) (s : Search) : Prop := (∃ x, s.Halts g (.refuted x)) ∧ s.Honest g

/-- One stretch of work leads down to `rest` and to a search with the property, unless the search is
refuted on the way to its end `z`. -/
def Completes (g : Kripke) (s z : Search) (session : Option SessionId) (rest : List Job)
    (Q : Search → Prop) : Prop :=
  z.Refuted g ∨ ∃ t, s.Stretch g session t ∧ t.Returned session rest ∧ Q t

namespace Completes

theorem imp {Q' : Search → Prop} (h : s.Completes g z session rest Q)
    (hQ : ∀ t, s.Stretch g session t → Q t → Q' t) : s.Completes g z session rest Q' :=
  h.imp_right fun ⟨t, hs, ht, hq⟩ => ⟨t, hs, ht, hQ t hs hq⟩

/-- A stretch can be made in two. -/
theorem step (hs : s.Stretch g session t) (ho : t.Open session)
    (h : t.Completes g z session rest Q) : s.Completes g z session rest Q :=
  h.imp_right fun ⟨u, hu, hr, hq⟩ => ⟨u, hs.trans ho hu, hr, hq⟩

end Completes

/-! ### The end of a turn -/

/-- The last task of a turn releases the session, which passes if nothing is outstanding. -/
theorem exists_release (hc : Course g order fs past s) (hw : ∀ f ∈ fs, f.isWindowFree = true)
    (ht : s.tasks = [.release session]) (hr : s.resolved = []) (ho : s.Open session) :
    ∃ t, Move g s t ∧ t.tasks = [] ∧ t.queue = s.queue ∧
      ((t.Open session ∧ t.resolved = [] ∧ ∀ k, s.Stretch g k t) ∨
      ∃ i, session = some i ∧ s.work i = 0 ∧ t.resolved = [i] ∧
        t.result? session = some .pass ∧ s.Stretch g session t) := by
  cases session with
  | none =>
    have hm : Move g s (s.withTasks []) := .releaseNone ht
    exact ⟨_, hm, rfl, rfl, .inl ⟨rfl, hr, fun _ => .quiet (.single hm) rfl rfl rfl rfl⟩⟩
  | some i =>
    obtain ⟨hv, ha⟩ := hc.valid_accounts
    obtain ⟨v, hi, hpend⟩ := Option.map_eq_some_iff.mp ho
    have hout : v.outstanding = s.work i + 1 := by
      rw [ha.balance i v hi, owed, ht]
      simp [Task.releases]
    by_cases hwork : s.work i = 0
    · -- no branch left its window, so the session passes
      have hnone : v.exceeded = none := by
        cases hx : v.exceeded with
        | none => rfl
        | some x => exact absurd ((hc.due hw).exceeded i v x hi hx) id
      have hopen : (s.release i).Open (some i) := (s.result?_release i _).trans ho
      have hm : Move g s (((s.release i).complete i v.outcome).withTasks []) :=
        .finish ht hi (by omega) hpend
      have hres (k : Option SessionId) := (s.release i).result?_complete hopen v.outcome k
      refine ⟨_, hm, rfl, rfl, .inr ⟨i, rfl, hwork, congrArg (· ++ [i]) hr, ?_, .of_eq (.single hm)
        rfl rfl (fun _ _ _ => Iff.rfl) (fun k hk => ?_) (fun _ => ho) (fun m w hm => ?_)⟩⟩
      · exact (hres _).trans (by rw [if_pos rfl, Session.outcome, hnone])
      · exact (hres k).trans (by rw [if_neg hk, result?_release])
      · obtain ⟨w', hm', hw'⟩ := waiters_release i hm
        obtain ⟨w'', hm'', hw''⟩ := waiters_complete i v.outcome hm'
        exact ⟨w'', hm'', hw''.trans hw'⟩
    · have hm : Move g s ((s.release i).withTasks []) :=
        .release ht hi (by omega) (.inl (by omega))
      exact ⟨_, hm, rfl, rfl, .inl ⟨(s.result?_release i _).trans ho, hr, fun k =>
        .of_eq (.single hm) rfl rfl (fun _ _ _ => Iff.rfl) (fun k _ => s.result?_release i k)
          (fun ho => (s.result?_release i k).symm.trans ho) (fun m v hm => waiters_release i hm)⟩⟩

theorem work_ne_zero {i : SessionId} {j : Job} (hj : j ∈ s.queue) (hi : j.session = some i) :
    s.work i ≠ 0 := by
  have : 0 < s.queue.countP (·.session = some i) :=
    List.countP_pos_iff.mpr ⟨j, hj, decide_eq_true hi⟩
  rw [work]
  omega

/-- A session with work left is released and stays open. -/
theorem exists_release_of_work (hc : Course g order fs past s)
    (hw : ∀ f ∈ fs, f.isWindowFree = true) (ht : s.tasks = [.release session])
    (hr : s.resolved = []) (ho : s.Open session) (hwork : ∀ i, session = some i → s.work i ≠ 0) :
    ∃ t, Move g s t ∧ t.tasks = [] ∧ t.queue = s.queue ∧ t.Open session ∧ t.resolved = [] ∧
      ∀ k, s.Stretch g k t := by
  obtain ⟨t, hm, hts, hq, ⟨ho, hr, hs⟩ | ⟨i, hi, hzero, -⟩⟩ := exists_release hc hw ht hr ho
  · exact ⟨t, hm, hts, hq, ho, hr, hs⟩
  · exact absurd hzero (hwork i hi)

/-- With its last task a turn comes to its end. -/
theorem completes_release (hw : ∀ f ∈ fs, f.isWindowFree = true)
    (hp : s.Poised g fs session link) (ht : s.tasks = [.release session]) {x : Work}
    (hx : s.Served g x) : s.Completes g z session s.queue (·.Served g x) := by
  obtain ⟨past, hc⟩ := hp.course
  obtain ⟨t, hm, hts, hq, ⟨ho, hr, hs⟩ | ⟨i, hi, hzero, hr, hpass, hs⟩⟩ :=
    exists_release hc hw ht hp.resolved hp.opened
  · exact .inr ⟨t, hs session, .opened hts hr hq ho, hx.extends hm.extends⟩
  · refine .inr ⟨t, hs, .settled [] hi hts hr (by rw [hq, List.append_nil]) (by simp)
      (.inr ⟨hpass, fun j hj hji => ?_⟩), hx.extends hm.extends⟩
    exact work_ne_zero (hq ▸ hj) (hji.trans hi) hzero

/-! ### Failing -/

/-- A violation refutes the requirement, or makes the session fail. -/
theorem completes_fail (hw : ∀ f ∈ fs, f.isWindowFree = true) (hz : Moves g s z)
    (hp : s.Poised g fs session link) {x : Counterexample}
    (ht : s.tasks = [.fail session x, .release session]) :
    s.Completes g z session s.queue (·.Served g (.fail session x)) := by
  obtain ⟨past, hc⟩ := hp.course
  cases session with
  | none =>
    have hx : s.Halts g (.refuted x) := .refuted ht
    obtain rfl := (show s.Ends g from .inr ⟨x, hx⟩).eq_of_moves hz
    exact .inl ⟨⟨x, hx⟩, hp.honest⟩
  | some i =>
    have hx : x.violation.isBudget = false := (((hc.due hw).head ht) _ rfl).2.1
    have hfail : Move g s ((s.complete i (.fail x)).withTasks [.release (some i)]) :=
      .decide ht hx hp.opened
    have hres (k : Option SessionId) := s.result?_complete hp.opened (.fail x) k
    obtain ⟨v, hi, hout⟩ := (hc.move hfail).ready i rfl
    have hresult : v.result = .fail x := by
      have := (hres (some i)).trans (if_pos rfl)
      obtain ⟨v', hi', hv'⟩ := Option.map_eq_some_iff.mp this
      cases hi.symm.trans hi'
      exact hv'
    have hm : Move g _ _ := .release rfl hi hout (.inr (by rw [hresult]; simp))
    have hfailed (k : Option SessionId) : Search.result? ((((s.complete i (.fail x)).withTasks
        [.release (some i)]).release i).withTasks []) k =
        if k = some i then some (.fail x) else s.result? k :=
      (result?_release _ i k).trans (hres k)
    refine .inr ⟨_, .of_eq ((Moves.single hfail).trans (.single hm)) rfl rfl
      (fun _ _ _ => Iff.rfl) (fun k hk => ?_) (fun _ => hp.opened) (fun m w hm => ?_),
      .settled [] rfl rfl ?_ ?_ (by simp) (.inl ⟨x, ?_⟩), ⟨x, ?_⟩⟩
    · exact (hfailed k).trans (if_neg hk)
    · obtain ⟨w', hm', hw'⟩ := waiters_complete i (.fail x) hm
      obtain ⟨w'', hm'', hw''⟩ := waiters_release i hm'
      exact ⟨w'', hm'', hw''.trans hw'⟩
    · exact congrArg (· ++ [i]) hp.resolved
    · exact (List.append_nil _).symm
    · exact (hfailed _).trans (if_pos rfl)
    · exact (hfailed _).trans (if_pos rfl)

/-! ### All that comes later -/

/-- The jobs are for the session, with the link, or for sessions that have their results. -/
def Lined (g : Kripke) (session : Option SessionId) (link : Option RevisitId) (js : List Job)
    (s : Search) : Prop :=
  ∀ j ∈ js, s.Settled j.session ∨ (j.session = session ∧ j.link = link ∧ s.Cleared g (.job j))

theorem Lined.stretch {js : List Job} {k : Option SessionId} (h : s.Lined g session link js)
    (hs : s.Stretch g k t) : t.Lined g session link js := fun j hj =>
  (h j hj).imp hs.moves.extends.settled (And.imp_right (And.imp_right (·.stretch hs)))

/-- Whatever the search is at takes one stretch. -/
structure Carries (g : Kripke) (fs : List Formula) (s z : Search) : Prop where
  todo : ∀ {n : Nat} {c : Context} {link : Option RevisitId} {o : Obligation},
    s.tasks = [.execute n c link o, .release c.session] → s.Poised g fs c.session link →
    s.Cleared g (.todo c link o) →
    s.Completes g z c.session s.queue (·.Served g (.todo c link o))
  done : ∀ {n : Nat} {c : Context} {link : Option RevisitId},
    s.tasks = [.resume n c link, .release c.session] → s.Poised g fs c.session link →
    s.Completes g z c.session s.queue (·.Served g (.done c link))
  jobs : ∀ {session : Option SessionId} {link : Option RevisitId} {rest js : List Job},
    s.tasks = [] → s.queue = rest ++ js → s.Poised g fs session link →
    s.Lined g session link js →
    s.Completes g z session rest fun t => ∀ j ∈ js, j.session = session → t.Served g (.job j)

/-- The search has an end, and whatever it comes to before takes one stretch. -/
structure Ahead (g : Kripke) (fs : List Formula) (s z : Search) : Prop where
  windowFree : ∀ f ∈ fs, f.isWindowFree = true
  ends : z.Ends g
  moves : Moves g s z
  later : ∀ m t, Move g s m → Moves g m t → Moves g t z → t.Carries g fs z

namespace Ahead

variable {n : Nat} {c : Context} {o : Obligation}

theorem exists_move (h : s.Ahead g fs z) {k : Task} {ts : List Task} (ht : s.tasks = k :: ts)
    (hk : ∀ x, k ≠ .fail none x) : ∃ m, Move g s m := by
  have hz := h.moves
  cases hz with
  | step first => exact ⟨_, first⟩
  | refl =>
    rcases h.ends with hidle | ⟨x, ⟨hx⟩⟩
    · cases hidle.1.symm.trans ht
    · exact absurd (List.cons.inj (ht.symm.trans hx)).1 (hk x)

theorem carries (h : s.Ahead g fs z) (hv : s.Valid g) {m : Search} (hm : Move g s m)
    (hmt : Moves g m t) : t.Carries g fs z :=
  h.later m t hm hmt (h.ends.moves hv (.step hm hmt) h.moves)

/-- What was found out of a precondition tells how to go on. -/
theorem react (h : s.Ahead g fs z) (hv : s.Valid g) {m : Search} {p : Precondition}
    {finding : Finding} (hm : Move g s m) (hmt : Moves g m t) (hp : t.Poised g fs c.session link)
    (hcl : t.Cleared g (.todo c link (.revisit o p)))
    (ht : t.tasks = (p.react c finding).tasks n c link o ++ [.release c.session])
    (hf : t.Truthful g p c.node finding) :
    t.Completes g z c.session t.queue (·.Served g (.todo c link (.revisit o p))) := by
  suffices hcomp : t.Completes g z c.session t.queue
      (·.Served g ((p.react c finding).work c link o)) from
    hcomp.imp fun u _ hu => .of_react hp.honest hf hu
  have hcl := hcl.react finding
  generalize p.react c finding = reaction at ht hcl ⊢
  cases reaction with
  | proceed => exact (h.carries hv hm hmt).todo ht hp hcl
  | met => exact (h.carries hv hm hmt).done ht hp
  | fail x =>
    exact completes_fail h.windowFree (h.ends.moves hv (.step hm hmt) h.moves) hp ht

/-- Jobs for sessions that have their result are dropped. -/
theorem drain (h : s.Ahead g fs z) (hv : s.Valid g) {m : Search} {dead : List Job} {x : Work}
    (hm : Move g s m) (hmt : Moves g m t) (hp : t.Poised g fs session link)
    (hcomp : t.Completes g z session (rest ++ dead) (·.Served g x))
    (hdead : ∀ j ∈ dead, t.Settled j.session) :
    t.Completes g z session rest (·.Served g x) := by
  rcases hcomp with href | ⟨u, hu, hret, hx⟩
  · exact .inl href
  cases hret with
  | opened hts hr hq ho =>
    refine .step hu ho (((h.carries hv hm (hmt.trans hu.moves)).jobs hts hq (hp.stretch hu ho hr)
      fun j hj => .inl (hu.moves.extends.settled (hdead j hj))).imp fun u' hu' _ => ?_)
    exact hx.extends hu'.moves.extends
  | settled dead' hi hts hr hq hd hs =>
    refine .inr ⟨u, hu, .settled (dead ++ dead') hi hts hr (by rw [hq, List.append_assoc])
      (fun j hj => ?_) hs, hx⟩
    rcases List.mem_append.mp hj with hj | hj
    · exact hu.moves.extends.settled (hdead j hj)
    · exact hd j hj

theorem unfold (h : s.Ahead g fs z) (hv : s.Valid g) {j : Job} (hm : Move g s t) (u : Unfolding)
    (hp : t.Poised g fs j.session j.link) (hcl : t.Cleared g (u.work j))
    (ht : t.tasks = u.tasks j ++ [.release j.session]) :
    t.Completes g z j.session t.queue (·.Served g (u.work j)) := by
  cases u with
  | pass => exact (h.carries hv hm (.refl t)).done ht hp
  | fail v => exact completes_fail h.windowFree (h.ends.moves hv (.single hm) h.moves) hp ht
  | obligation o => exact (h.carries hv hm (.refl t)).todo ht hp hcl

/-- When a revisit is resumed, the rest of it is done at once. -/
theorem completes_resume (h : s.Ahead g fs z) {i : RevisitId} {r : Revisit}
    (hp : s.Poised g fs r.session (some i)) (hi : s.Alive i r)
    (hm : Move g s ((s.markResumed i).withTasks
      [.execute n r.toContext r.parent r.resume, .release r.session])) :
    s.Completes g z r.session s.queue (·.Resumed (some i)) := by
  have hcl : Cleared g ((s.markResumed i).withTasks
      [.execute n r.toContext r.parent r.resume, .release r.session]) r.rest :=
    Clear.mono (hp.cleared i r hi) hm.extends fun k hk _ _ => .inl hk
  rcases (h.carries hp.valid hm (.refl _)).todo rfl (hp.resume hi rfl hm) hcl with
    href | ⟨u, hu, hret, hserved⟩
  · exact .inl href
  refine .inr ⟨u, .prepend (.single hm) hu (fun k hk => .inl hk)
    (fun i' r' _ h' => (alive_markResumed.mp h').1) (fun i' r' h' => ?_) rfl (fun _ => rfl)
    (fun m v hm => ⟨v, hm, rfl⟩), hret,
    (resumed_markResumed hi.record _).extends hu.moves.extends⟩
  by_cases hne : i' = i
  · subst hne
    cases hi.record.symm.trans h'.record
    exact .inr hserved
  · exact .inl (alive_markResumed.mpr ⟨h', hne⟩)

/-- What is done resumes its link, once. -/
theorem completes_done (h : s.Ahead g fs z) (hp : s.Poised g fs c.session link)
    (ht : s.tasks = [.resume n c link, .release c.session]) :
    s.Completes g z c.session s.queue (·.Served g (.done c link)) := by
  obtain ⟨past, hc⟩ := hp.course
  obtain ⟨m, hm⟩ := h.exists_move ht (by simp)
  have hend (hm : Move g s (s.withTasks [.release c.session])) (hr : s.Resumed link) :
      s.Completes g z c.session s.queue (·.Served g (.done c link)) := by
    have hs : s.Stretch g c.session (s.withTasks [.release c.session]) :=
      .quiet (.single hm) rfl rfl rfl rfl
    exact .step hs hp.opened (completes_release h.windowFree
      (hp.stretch hs hp.opened hp.resolved) rfl (.inr (hr.extends hm.extends)))
  have hlinked : s.Linked c.session link := (hc.inScope.head ht _ rfl).2
  rcases hm.of_resume ht with ⟨rfl, rfl⟩ | ⟨n', i, e, rfl, rfl, hi, hcase⟩
  · exact hend hm fun i hi => by cases hi
  obtain ⟨e', he', hsession, hkind⟩ := hlinked i rfl
  obtain rfl := Option.some.inj (hi.symm.trans he')
  rcases hcase with ⟨hres, rfl⟩ | ⟨-, hs, -⟩ | ⟨hres, ho, rfl⟩
  · exact hend hm fun k hk => ⟨e, Option.some.inj hk ▸ hi, hres⟩
  · rw [hsession] at hs
    exact absurd hp.opened hs.not_open
  obtain ⟨r, b⟩ := e
  obtain rfl : b = false := hres
  have hsession : r.session = c.session := hsession
  rw [← hsession] at hp hm ⊢
  exact (h.completes_resume hp ⟨hi, hkind, ho⟩ hm).imp fun t _ hr => .inr hr

/-! ### Obligations -/

section Todo

variable (h : s.Ahead g fs z) (hp : s.Poised g fs c.session link)
include h hp

theorem completes_spawn (hcl : s.Cleared g (.todo c link o))
    (ht : s.tasks = [.execute n c link o, .release c.session]) (ho : ∀ o' p, o ≠ .revisit o' p) :
    s.Completes g z c.session s.queue (·.Served g (.todo c link o)) := by
  obtain ⟨past, hc⟩ := hp.course
  obtain ⟨m, hm⟩ := h.exists_move ht (by simp)
  obtain ⟨jobs, hj, rfl⟩ := hm.of_spawn ht ho
  have hnode : c.node.index < g.size := (hp.valid.head ht).1.node
  have hflat : o.Flat c := (((hc.due h.windowFree).head ht) _ rfl).2.1
  have hsession := Obligation.session_jobs hj
  have hs : s.Stretch g c.session ((s.push c.session jobs).withTasks [.release c.session]) :=
    .push hm
  have hopen : ((s.push c.session jobs).withTasks [.release c.session]).Open c.session :=
    (s.result?_push _ _ _).trans hp.opened
  -- its jobs are still to be done, so the session stays open
  obtain ⟨j, hjm⟩ := List.exists_mem_of_ne_nil _ (Obligation.jobs_ne_nil hnode hj)
  obtain ⟨t, hmt, hts, hq, hto, htr, hst⟩ := exists_release_of_work (hc.move hm) h.windowFree rfl
    ((resolved_retain _ _ _).trans hp.resolved) hopen
    fun i hi => work_ne_zero (List.mem_append_right _ hjm) ((hsession j hjm).trans hi)
  have hs' := hs.trans hopen (hst c.session)
  refine .step hs' hto (((h.carries hp.valid hm (.single hmt)).jobs hts hq
    (hp.stretch hs' hto htr) fun j hjm => .inr ⟨hsession j hjm, Obligation.link_jobs hj j hjm,
      (hcl.spawn hflat hj j hjm).stretch hs'⟩).imp fun u _ hu => ?_)
  exact .of_jobs hnode hj fun j hjm => hu j hjm (hsession j hjm)

variable {p : Precondition}

theorem window_eq (ht : s.tasks = [.execute n c link (.revisit o p), .release c.session]) :
    c.window = ∅ := by
  obtain ⟨past, hc⟩ := hp.course
  have hpart := ((hc.reached.head ht) _ rfl).2.1.1
  exact (hpart.isWindowFree (isWindowFree_current h.windowFree)).2

variable (hcl : s.Cleared g (.todo c link (.revisit o p)))
include hcl

theorem completes_answer {i : SessionId} {v : Session} {finding : Finding} (hk : p.kind ≠ .required)
    (hkey : s.key? i = some (c.inquiry p.formula).sessionKey) (hi : s.session? i = some v)
    (hf : Finding.ofResult? v.result = some finding)
    (hm : Move g s ((s.suspend ⟨c, o, p, link⟩).withTasks
      ((p.react c finding).tasks n c link o ++ [.release c.session]))) :
    s.Completes g z c.session s.queue (·.Served g (.todo c link (.revisit o p))) := by
  obtain ⟨past, hc⟩ := hp.course
  have hs : s.Stretch g c.session _ := .suspend hk hm
  have hresult : s.result? (some i) = some v.result := by rw [result?, hi]; rfl
  have hout : s.Due g (current fs) (.outcome i v.result) :=
    (hc.due h.windowFree).results i v hi fun hpend => by rw [hpend] at hf; cases hf
  exact .step hs hp.opened (h.react hp.valid hm (.refl _) (hp.stretch hs hp.opened hp.resolved)
    (hcl.stretch hs) rfl ((hout.mono hm.extends).truthful hkey hresult hf))

variable (ht : s.tasks = [.execute n c link (.revisit o p), .release c.session])
include ht

theorem completes_judge (hstate : p.formula.isState = true) :
    s.Completes g z c.session s.queue (·.Served g (.todo c link (.revisit o p))) := by
  obtain ⟨m, hm⟩ := h.exists_move ht (by simp)
  obtain ⟨node, judgement, hn, hj, rfl⟩ := hm.of_judge ht hstate
  have hs : s.Stretch g c.session _ := .quiet (.single hm) rfl rfl rfl rfl
  refine .step hs hp.opened (h.react hp.valid hm (.refl _)
    (hp.stretch hs hp.opened hp.resolved) (hcl.stretch hs) rfl ?_)
  rcases judge_of_window_eq_empty (h.window_eq hp ht) hn hj with ⟨rfl, hholds⟩ | ⟨rfl, hnot⟩
  · exact fun _ => hholds
  · exact ⟨rfl, fun _ => hnot⟩

/-- What is required is looked at first, and the rest as soon as it is found once. -/
theorem completes_require (hstate : p.formula.isState = false) (hk : p.kind = .required) :
    s.Completes g z c.session s.queue (·.Served g (.todo c link (.revisit o p))) := by
  obtain ⟨past, hc⟩ := hp.course
  obtain ⟨m, hm⟩ := h.exists_move ht (by simp)
  obtain rfl : m = s.required c link o p [.release c.session] := hm.of_require ht hstate hk
  have hp' := hp.require hcl hk hm
  obtain ⟨t, hmt, hts, hq, hto, htr, hst⟩ := exists_release_of_work (hc.move hm) h.windowFree rfl
    hp'.resolved hp'.opened
    fun i hi => work_ne_zero (List.mem_append_right _ List.mem_cons_self) hi
  have hcl' : t.Cleared g (.job (c.demand p.formula s.nextRevisit)) :=
    ⟨fun k hk _ hl => .inl ((hst c.session).finished_required hc hk hl), fun i hi => absurd rfl hi⟩
  rcases (h.carries hp.valid hm (.single hmt)).jobs hts hq (hp'.stretch (hst _) hto htr)
    (List.forall_mem_singleton.mpr (.inr ⟨rfl, rfl, hcl'⟩)) with href | ⟨u, hu, hret, hserved⟩
  · exact .inl href
  have hserved := List.forall_mem_singleton.mp hserved rfl
  have hru := (hst c.session).trans hto hu
  have hnext : (s.required c link o p [.release c.session]).Alive s.nextRevisit ⟨c, o, p, link⟩ :=
    (alive_required hk hp.opened).mpr (.inr ⟨rfl, rfl⟩)
  refine .inr ⟨u, .prepend (.single hm) hru (fun k hk => .inl (visited_required ▸ hk))
    (fun i r hi hi' => ?_) (fun i r hi => .inl ((alive_required hk hp.opened).mpr (.inl hi)))
    keys_required result?_required (fun i v hi => waiters_required hi), hret, ?_⟩
  · refine ((alive_required hk hp.opened).mp hi').resolve_right ?_
    rintro ⟨rfl, rfl⟩
    rcases hserved with hfail | ⟨hres, -⟩
    · exact hfail.not_open hi.opened
    · exact hi.not_resumed hres
  · by_cases hfail : u.Failed c.session
    · exact .inl hfail
    obtain ⟨hres, hkey⟩ := hserved.resolve_left hfail
    obtain ⟨hlink, hmet⟩ := (hru.resumed _ _ hnext hres).resolve_left hfail
    refine .inr ⟨hlink, ?_⟩
    rw [Met, hk]
    have hcycle := Context.inCycle_of_history_eq
      (c := (c.demand p.formula s.nextRevisit).toContext) rfl
    exact ⟨holds_of_finished hkey hcycle (fun k hk _ hl _ => hru.finished_required hc hk hl) hfail,
      hmet⟩

omit hcl in
/-- A session that is opened is carried through until it has its result, which is right. -/
theorem exists_session (hk : p.kind ≠ .required)
    (hm : Move g s (s.inquired c link o p [.release c.session])) :
    z.Refuted g ∨ ∃ u dead,
      (s.inquired c link o p [.release c.session]).Stretch g (some s.nextSession) u ∧
      u.tasks = [] ∧ u.resolved = [s.nextSession] ∧ u.queue = s.queue ++ dead ∧
      (∀ j ∈ dead, u.Settled j.session) ∧ ¬ u.Open (some s.nextSession) ∧ u.Honest g := by
  obtain ⟨past, hc⟩ := hp.course
  obtain ⟨-, root, hroot, -, -, hsize, -⟩ := (hc.inScope.head ht _ rfl).2
  have hv := hp.valid
  have hp' := hp.inquire hroot hsize hk hm
  obtain ⟨t, hmt, hts, hq, hto, htr, hst⟩ := exists_release_of_work (hc.move hm) h.windowFree rfl
    hp'.resolved ((open_inquired hv).mpr (.inl hp.opened)) fun i hi => work_inquired hi
  have hopen := (hst none).kept _ (by simp) hp'.opened
  have hcl' : t.Cleared g (.job { c.inquiry p.formula with session := some s.nextSession }) :=
    ⟨fun k hk hs _ => .inl ((hst none).finished_inquired hc hk hs), fun i hi => absurd rfl hi⟩
  rcases (h.carries hp.valid hm (.single hmt)).jobs hts (hq.trans queue_inquired)
    (hp'.stretch (hst _) hopen htr) (List.forall_mem_singleton.mpr (.inr ⟨rfl, rfl, hcl'⟩)) with
    href | ⟨u, hu, hret, hserved⟩
  · exact .inl href
  have hru := (hst _).trans hopen hu
  cases hret with
  | opened hts hr hq ho =>
    obtain ⟨j, hj, hjs⟩ := (hp'.stretch hru ho hr).exists_job hts
    rw [hq] at hj
    have hknown := (hv.queue j hj).session
    rw [show j.toContext.session = some s.nextSession from hjs] at hknown
    exact absurd (not_open_nextSession hv) hknown
  | settled dead hi hts hr hq hd hs =>
    cases hi
    exact .inr ⟨u, dead, hru, hts, hr, hq, hd, (settled_of_ended hs).not_open,
      hru.honest_inquired hc hp.honest (List.forall_mem_singleton.mp hserved rfl)⟩

/-- The obligation that waits for a session goes on when the session has its result. -/
theorem completes_inquire (hk : p.kind ≠ .required)
    (hm : Move g s (s.inquired c link o p [.release c.session])) :
    s.Completes g z c.session s.queue (·.Served g (.todo c link (.revisit o p))) := by
  obtain ⟨past, hc⟩ := hp.course
  have hv := hp.valid
  rcases h.exists_session hp ht hk hm with href | ⟨u, dead, hu, hts, hr, hq, hd, hclosed, hh⟩
  · exact .inl href
  have hcu := (hc.move hm).moves hu.moves
  obtain ⟨v₀, hi₀, hw₀⟩ : ∃ v, (s.inquired c link o p [.release c.session]).session? s.nextSession =
    some v ∧ _ := waiters_nextSession hv
  obtain ⟨v, hi, hw⟩ := hu.waiters _ _ hi₀
  obtain ⟨b, hrec, -⟩ := hu.moves.extends.entry _ _ (record?_inquired.mpr (.inr ⟨rfl, rfl⟩))
  have hresult : u.result? (some s.nextSession) = some v.result := by rw [result?, hi]; rfl
  have hpend : v.result ≠ .pending := fun hpend => hclosed (by rw [Open, hresult, hpend])
  have hne : c.session ≠ some s.nextSession := fun hne => by
    cases (not_open_nextSession hv).symm.trans (hne ▸ hp.opened)
  have hopen : u.Open c.session := hu.kept _ hne ((open_inquired hv).mpr (.inl hp.opened))
  obtain ⟨finding, t, hf, hut, htt, hqt, hrt, hvis, hrev, hkeys, hres, hses⟩ := exists_told (g := g)
    hts hr hi (by rw [hw, hw₀]; rfl) hpend hrec hopen
  have hs : s.Stretch g c.session t := .of_session hv hk hm hu hclosed (fun _ => hh) hut hvis hrev
    hkeys hres hses
  have hto : t.Open c.session := (hres _).trans hopen
  have hp' := hp.stretch hs hto hrt
  have hkey : u.key? s.nextSession = some (c.inquiry p.formula).sessionKey :=
    hu.moves.extends.key _ _ (key?_inquired.mpr (.inr ⟨rfl, rfl⟩))
  have htruth : t.Truthful g p c.node finding :=
    (((hcu.due h.windowFree).results _ v hi hpend).mono hut.extends).truthful
      (hut.extends.key _ _ hkey) ((hres _).trans hresult) hf
  have hcomp := h.react hv hm (hu.moves.trans hut) hp' (hcl.stretch hs) htt htruth
  rw [hqt, hq] at hcomp
  exact .step hs hto (h.drain hv hm (hu.moves.trans hut) hp' hcomp
    fun j hj => hut.extends.settled (hd j hj))

/-- An obligation with a precondition takes one stretch. -/
theorem completes_revisit :
    s.Completes g z c.session s.queue (·.Served g (.todo c link (.revisit o p))) := by
  obtain ⟨past, hc⟩ := hp.course
  cases hstate : p.formula.isState with
  | true => exact h.completes_judge hp hcl ht hstate
  | false =>
    by_cases hk : p.kind = .required
    · exact h.completes_require hp hcl ht hstate hk
    obtain ⟨m, hm⟩ := h.exists_move ht (by simp)
    rcases hm.of_ask ht hstate hk with ⟨-, rfl⟩ | ⟨i, hkey, hcase⟩
    · exact h.completes_inquire hp hcl ht hk hm
    rcases hcase with ⟨ho, -⟩ | ⟨-, hs, -⟩ | ⟨v, finding, hi, hf, -, rfl⟩
    · -- sessions that are open are on larger formulas
      obtain ⟨-, root, hroot, -, -, hsize, -⟩ := (hc.inScope.head ht _ rfl).2
      exact absurd hsize (Nat.not_lt.mpr (hp.least i _ root ho hkey hroot))
    · exact absurd hp.opened hs.not_open
    · exact h.completes_answer hp hcl hk hkey hi hf hm

end Todo

theorem completes_todo (h : s.Ahead g fs z) (hp : s.Poised g fs c.session link)
    (hcl : s.Cleared g (.todo c link o))
    (ht : s.tasks = [.execute n c link o, .release c.session]) :
    s.Completes g z c.session s.queue (·.Served g (.todo c link o)) := by
  cases o with
  | revisit o p => exact h.completes_revisit hp hcl ht
  | here | successors | step | constrain => exact h.completes_spawn hp hcl ht (by simp)

/-! ### Jobs -/

theorem plain {j : Job} (h : s.Ahead g fs z) (hc : Course g order fs past s)
    (ht : s.tasks = [.process j]) : j.Plain := by
  obtain ⟨hpart, -⟩ := (hc.reached.head ht _ rfl).2
  obtain ⟨hfree, hwindow⟩ := hpart.isWindowFree (isWindowFree_current h.windowFree)
  exact ⟨hwindow, hpart.isUniversal (isUniversal_universal _), hfree,
    (((hc.due h.windowFree).head ht) _ rfl).2.1⟩

/-- When the work that a visit led to is done, the visit is finished. -/
theorem completes_visit {j : Job} {node : Node} {u : Unfolding} (h : s.Ahead g fs z)
    (hp : s.Poised g fs j.session j.link) (hcl : s.Cleared g (.job j)) (hplain : j.Plain)
    (hn : g.node? j.node = some node) (hu : j.formula.unfold (j.position node) = .ok u)
    (hm : Move g s { s with
      visited := s.visited ++ [j.visitKey]
      tasks := u.tasks j ++ [.release j.session] }) :
    s.Completes g z j.session s.queue (·.Served g (.job j)) := by
  have hcl' : Cleared g { s with
      visited := s.visited ++ [j.visitKey]
      tasks := u.tasks j ++ [.release j.session] } (u.work j) := by
    cases u with
    | obligation o => exact hcl.visit hplain hu hm.extends rfl
    | pass | fail => trivial
  rcases h.unfold hp.valid hm u (hp.visit hm) hcl' rfl with href | ⟨t, hs, hret, hserved⟩
  · exact .inl href
  have he := hm.extends.trans hs.moves.extends
  have hkey : j.visitKey ∈ t.visited :=
    hs.moves.extends.visited _ (List.mem_append_right _ List.mem_cons_self)
  have hbut : t.ClearBut g j := by
    intro k hk hsession hlink
    rcases hs.visited k hk with hk | hk
    · rcases List.mem_append.mp hk with hk | hk
      · exact .inr ((hcl.visited k hk hsession hlink).imp_left (·.extends he))
      · exact .inl (List.mem_singleton.mp hk)
    · exact .inr (.inl hk)
  obtain ⟨hfin, hserved⟩ := finished_of_served hplain hn hu hkey
    (fun i hi => he.visited _ (hcl.marked i hi)) hbut.backs hserved
  refine .inr ⟨t, .prepend (.single hm) hs (fun k hk => ?_)
    (fun i r _ hi => ⟨hi.record, hi.kind, hi.opened⟩)
    (fun i r hi => .inl ⟨hi.record, hi.kind, hi.opened⟩) rfl (fun _ => rfl)
    (fun i v hi => ⟨v, hi, rfl⟩), hret, hserved⟩
  rcases List.mem_append.mp hk with hk | hk
  · exact .inl hk
  · exact .inr (List.mem_singleton.mp hk ▸ hfin)

/-- A job that is taken makes its visit, unless there is a finished one. -/
theorem completes_job {j : Job} (h : s.Ahead g fs z) (hp : s.Poised g fs j.session j.link)
    (hcl : s.Cleared g (.job j)) (ht : s.tasks = [.process j]) :
    s.Completes g z j.session s.queue (·.Served g (.job j)) := by
  obtain ⟨past, hc⟩ := hp.course
  have hplain := h.plain hc ht
  obtain ⟨m, hm⟩ := h.exists_move ht (by simp)
  rcases hm.of_process ht with ⟨hs | ⟨-, hvisited⟩, rfl⟩ | ⟨-, -, node, u, hn, hu, rfl⟩
  · exact absurd hp.opened hs.not_open
  · -- a visit that is not finished is at another node, or of another formula
    have hfin : s.Finished g j.visitKey := by
      refine (hcl.visited _ hvisited rfl rfl).resolve_right ?_
      rintro ⟨hcycle, hlt | ⟨-, hhist⟩⟩
      · exact absurd hlt (Nat.lt_irrefl _)
      · have hcycle : j.inCycle = false := hcycle
        rw [(Context.inCycle_iff hplain.window).mpr hhist] at hcycle
        cases hcycle
    have hserved : s.Served g (.job j) := hfin.imp_right fun hfin => ⟨hfin.1, hvisited⟩
    have hs : s.Stretch g j.session (s.withTasks [.release j.session]) :=
      .quiet (.single hm) rfl rfl rfl rfl
    exact .step hs hp.opened (completes_release h.windowFree
      (hp.stretch hs hp.opened hp.resolved) rfl (hserved.extends hm.extends))
  · exact h.completes_visit hp hcl hplain hn hu hm

theorem move (h : s.Ahead g fs z) (hv : s.Valid g) (hm : Move g s t) : t.Ahead g fs z :=
  ⟨h.windowFree, h.ends, h.ends.moves hv (.single hm) h.moves,
    fun _ t' hm' hmt => h.later _ t' hm (.step hm' hmt)⟩

/-- A job for a session that has its result is dropped. -/
theorem exists_drop {j : Job} (hc : Course g order fs past s) (ht : s.tasks = [.process j])
    (hs : s.Settled j.session) :
    ∃ t, Moves g s t ∧ t.tasks = [] ∧ t.queue = s.queue ∧ t.resolved = s.resolved ∧
      (∀ k, t.result? k = s.result? k) ∧ ∀ k, s.Stretch g k t := by
  have hstale : Move g s (s.withTasks [.release j.session]) := .stale ht hs
  obtain ⟨i, hi⟩ : ∃ i, j.session = some i := by
    cases hj : j.session with
    | none =>
      rw [hj] at hs
      exact absurd rfl hs.not_open
    | some i => exact ⟨i, rfl⟩
  rw [hi] at hstale hs
  obtain ⟨v, hiv, hout⟩ := (hc.move hstale).ready i rfl
  have hpend : v.result ≠ .pending := fun hpend => hs.not_open <| by
    rw [Open, result?, show s.session? i = some v from hiv, Option.map_some, hpend]
  have hrelease : Move g _ _ := .release rfl hiv hout (.inr hpend)
  have hres (k : Option SessionId) := s.result?_release i k
  exact ⟨_, .step hstale (.single hrelease), rfl, rfl, rfl, hres, fun k =>
    .of_eq (.step hstale (.single hrelease)) rfl rfl (fun _ _ _ => Iff.rfl) (fun k _ => hres k)
      (fun ho => (hres k).symm.trans ho) fun m w hm => waiters_release i hm⟩

section Jobs

variable {j : Job} {js : List Job} (h : s.Ahead g fs z)
include h

/-- After a job that is dropped, the others are done. -/
theorem completes_dropped (hp : s.Poised g fs session link) (hjs : s.Lined g session link js)
    (hdead : s.Settled j.session)
    (hm : Move g s { s with queue := rest ++ js, tasks := [.process j] }) :
    s.Completes g z session rest fun t => ∀ j ∈ js, j.session = session → t.Served g (.job j) := by
  obtain ⟨past, hc⟩ := hp.course
  obtain ⟨t, hmt, htt, hqt, hrt, hres, hst⟩ := exists_drop (hc.move hm) rfl hdead
  have hs : s.Stretch g session t :=
    .trans (.quiet (.single hm) rfl rfl rfl rfl) hp.opened (hst session)
  have hopen : t.Open session := (hres session).trans hp.opened
  exact .step hs hopen ((h.carries hp.valid hm hmt).jobs htt hqt
    (hp.stretch hs hopen (hrt.trans hp.resolved)) (hjs.stretch hs))

/-- After a job that is done, the others are done, unless the session has its result. -/
theorem completes_last (hp : s.Poised g fs j.session j.link)
    (hjs : s.Lined g j.session j.link js) (hcl : s.Cleared g (.job j))
    (hm : Move g s { s with queue := rest ++ js, tasks := [.process j] }) :
    s.Completes g z j.session rest fun t =>
      t.Served g (.job j) ∧ ∀ j' ∈ js, j'.session = j.session → t.Served g (.job j') := by
  have hs : s.Stretch g j.session { s with queue := rest ++ js, tasks := [.process j] } :=
    .quiet (.single hm) rfl rfl rfl rfl
  rcases (h.move hp.valid hm).completes_job (hp.stretch hs hp.opened hp.resolved) (hcl.stretch hs)
    rfl with href | ⟨u, hu, hret, hserved⟩
  · exact .inl href
  have hsu := hs.trans hp.opened hu
  cases hret with
  | opened htu hru hqu hou =>
    exact .step hsu hou (((h.carries hp.valid hm hu.moves).jobs htu hqu (hp.stretch hsu hou hru)
      (hjs.stretch hsu)).imp fun u' hu' hall => ⟨hserved.extends hu'.moves.extends, hall⟩)
  | settled dead hi htu hru hqu hdu hend =>
    refine .inr ⟨u, hsu, .settled (js ++ dead) hi htu hru (hqu.trans (List.append_assoc _ _ _))
      (fun j' hj' => ?_) hend, hserved, fun j' hj' hsj => ?_⟩
    · rcases List.mem_append.mp hj' with hj' | hj'
      · exact (hjs.stretch hsu j' hj').elim id fun hlive => hlive.1 ▸ settled_of_ended hend
      · exact hdu j' hj'
    · rcases hend with hfail | ⟨-, hnone⟩
      · exact .inl (hsj ▸ hfail)
      · refine absurd hsj (hnone j' ?_)
        rw [hqu]
        exact List.mem_append_left _ (List.mem_append_right _ hj')

/-- Jobs are done one after the other, the last one first. -/
theorem completes_jobs (ht : s.tasks = []) (hq : s.queue = rest ++ js)
    (hp : s.Poised g fs session link) (hjs : s.Lined g session link js) :
    s.Completes g z session rest fun t => ∀ j ∈ js, j.session = session → t.Served g (.job j) := by
  obtain ⟨past, hc⟩ := hp.course
  rcases List.eq_nil_or_concat' js with rfl | ⟨js, j, rfl⟩
  · refine .inr ⟨s, .refl s, .opened ht hp.resolved (hq.trans (List.append_nil _)) hp.opened, ?_⟩
    exact fun j hj => by cases hj
  have htakes : s.Takes j (rest ++ js) := by
    rw [Takes, hc.order_eq]
    exact hq.trans (List.append_assoc _ _ _).symm
  have hm : Move g s { s with queue := rest ++ js, tasks := [.process j] } :=
    .take ht hp.resolved htakes
  have hothers : s.Lined g session link js := fun j' hj' => hjs j' (List.mem_append_left _ hj')
  simp only [List.forall_mem_append, List.forall_mem_singleton]
  rcases hjs j (List.mem_append_right _ List.mem_cons_self) with hdead | ⟨rfl, rfl, hcl⟩
  · refine (h.completes_dropped hp hothers hdead hm).imp fun t _ hall => ⟨hall, fun hsj => ?_⟩
    rw [hsj] at hdead
    exact absurd hp.opened hdead.not_open
  · exact (h.completes_last hp hothers hcl hm).imp fun t _ hall => ⟨hall.2, fun _ => hall.1⟩

end Jobs

end Ahead

/-- Whatever a search comes to before its end takes one stretch. -/
theorem carries (hw : ∀ f ∈ fs, f.isWindowFree = true) (hze : z.Ends g) (hv : s.Valid g)
    (hz : Moves g s z) : s.Carries g fs z := by
  refine hze.induction (P := fun s => s.Carries g fs z) hv hz fun s hz later => ?_
  have h : s.Ahead g fs z := ⟨hw, hze, hz, later⟩
  exact ⟨fun ht hp hcl => h.completes_todo hp hcl ht, fun ht hp => h.completes_done hp ht,
    h.completes_jobs⟩

end Search

end CostCTL
