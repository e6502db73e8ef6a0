import CostCTL.Proofs.Agenda
import CostCTL.Proofs.Pace
import CostCTL.Proofs.Stretch

/-!
# What is pending, and what comes of it

A search is left with work: jobs, tasks, and revisits that wait for sessions (`Search.Has`). A later
search answers the work if what it asks for was looked at (`Search.Answered`). Moves hand work on,
so a search that answers all work after a move has answered the work before it (`Move.answered`), in
whatever order jobs are taken. What was begun for a session is therefore answered as soon as no work
is left for the session (`Search.Tends`).
-/

namespace CostCTL

open Formula

variable {g : Kripke} {s t u : Search} {f : Formula} {base : Nat} {x : Work}

/-! ### Work that is left -/

/-- The session that the work is for. -/
def Work.session : Work → Option SessionId
  | .job j => j.session
  | .todo c _ _ | .done c _ => c.session
  | .fail session _ => session
  | .outcome i _ => some i

/-- The work that the task is about. -/
def Task.subject? (s : Search) : Task → Option Work
  | .tell _ w => (s.record? w).map (·.revisit.work)
  | k => k.work?

inductive Search.Has (s : Search) : Work → Prop where
  | job {j : Job} (hj : j ∈ s.queue) : s.Has (.job j)
  | task {k : Task} {x : Work} (hk : k ∈ s.tasks) (hx : k.subject? s = some x) : s.Has x
  | waiter {w : RevisitId} {e : RevisitEntry} (hw : w ∈ s.parked) (he : s.record? w = some e) :
    s.Has e.revisit.work

theorem Task.subject?_extends {k : Task} (h : k.subject? s = some x) (he : s.Extends t) :
    k.subject? t = some x := by
  cases k with
  | tell result w =>
    obtain ⟨e, hw, rfl⟩ := Option.map_eq_some_iff.mp h
    obtain ⟨b, hb, -⟩ := he.entry w e hw
    rw [subject?, hb]
    rfl
  | process | execute | resume | fail | release => exact h

/-- A job stays pending until it is processed. -/
theorem Move.queue_cases (h : Move g s t) {j : Job} (hj : j ∈ s.queue) :
    j ∈ t.queue ∨ .process j ∈ t.tasks := by
  cases h with
  | take _ _ hq =>
    rcases List.mem_cons.mp (hq.perm.mem_iff.mp hj) with rfl | hj
    · exact .inr List.mem_cons_self
    · exact .inl hj
  | spawn => exact .inl (List.mem_append_left _ hj)
  | require => exact .inl (List.mem_append_left _ hj)
  | @inquire n c =>
    refine .inl ?_
    rw [Search.withTasks, Search.queue_retain]
    exact List.mem_append_left _ hj
  | @join n c =>
    refine .inl ?_
    rw [Search.withTasks, Search.queue_retain]
    exact hj
  | notify | stale | repeated | visit | judge | answerLate | answer | resumeNone | resumeAgain
    | resumeLate | resume | tellLate | tell | exceed | decide | decideLate | releaseNone | release
    | finish => exact .inl hj

/-- Work is left, unless it is what the move is about. -/
theorem Move.has (h : Move g s t) (hx : s.Has x) :
    t.Has x ∨ ∃ k ts, s.tasks = k :: ts ∧ k.subject? s = some x := by
  have he := h.extends
  cases hx with
  | job hj => exact .inl ((h.queue_cases hj).elim .job fun hk => .task hk rfl)
  | @task k _ hk hx =>
    cases hts : s.tasks with
    | nil =>
      rw [hts] at hk
      cases hk
    | cons k' ts =>
      rw [hts] at hk
      rcases List.mem_cons.mp hk with rfl | hk
      · exact .inr ⟨k, ts, rfl, hx⟩
      · exact .inl (.task (h.tail_subset hts hk) (Task.subject?_extends hx he))
  | @waiter w e hw hrec =>
    obtain ⟨b, hb, -⟩ := he.entry w e hrec
    have hwait (hw : w ∈ t.parked) : t.Has e.revisit.work := .waiter (e := ⟨e.revisit, b⟩) hw hb
    rcases h.parked_cases with heq | ⟨i, v, -, hperm, htasks⟩ | ⟨_, _, _, _, _, _, -, hperm, -⟩
    · exact .inl (hwait (heq ▸ hw))
    · rcases List.mem_append.mp (hperm.mem_iff.mpr hw) with hw | hw
      · exact .inl (hwait hw)
      · refine .inl (.task (k := .tell v.result w) (htasks ▸ List.mem_map_of_mem hw) ?_)
        rw [Task.subject?, hb]
        rfl
    · exact .inl (hwait (hperm.mem_iff.mpr (List.mem_append_left _ hw)))

/-- A revisit that was suspended is left, if it waits. -/
theorem Search.Has.of_suspend {r : Revisit} (he : (s.suspend r).Extends t)
    (hw : s.nextRevisit ∈ t.parked) : t.Has r.work := by
  obtain ⟨b, hb, -⟩ := he.entry s.nextRevisit ⟨r, false⟩ (Numbered.get?_concat_self _ _)
  exact .waiter (e := ⟨r, b⟩) hw hb

theorem Reaction.has {reaction : Reaction} {n : Nat} {c : Context} {link : Option RevisitId}
    {o : Obligation} (h : reaction.tasks n c link o ⊆ s.tasks) :
    s.Has (reaction.work c link o) := by
  cases reaction <;> exact .task (h List.mem_cons_self) rfl

theorem Reaction.session_work {c : Context} {link : Option RevisitId} {o : Obligation}
    (reaction : Reaction) : (reaction.work c link o).session = c.session := by
  cases reaction <;> rfl

theorem Unfolding.has {v : Unfolding} {j : Job} (h : v.tasks j ⊆ s.tasks) : s.Has (v.work j) := by
  cases v <;> exact .task (h List.mem_cons_self) rfl

theorem Unfolding.session_work {j : Job} (v : Unfolding) : (v.work j).session = j.session := by
  cases v <;> rfl

/-! ### Answers -/

namespace Search

/-- What the obligation leads to was looked at. What it requires may be looked at still, and then
the revisit is on record. -/
def Heeded (g : Kripke) (s : Search) (c : Context) (link : Option RevisitId) : Obligation → Prop
  | .revisit o p =>
    match p.kind with
    | .required => (p.formula.Holds g c.node ∧ s.Heeded g c link o) ∨
      ∃ i b, s.record? i = some ⟨⟨c, o, p, link⟩, b⟩ ∧ (c.demand p.formula i).visitKey ∈ s.visited
    | .skip => (p.formula.Holds g c.node ∧ s.Resumed link) ∨ s.Heeded g c link o
    | .ignored => ¬ p.formula.Holds g c.node ∧ s.Resumed link
  | o => ∀ jobs, o.jobs? g c link = some jobs → ∀ j ∈ jobs, j.visitKey ∈ s.visited

/-- The work was done, but what was looked at may have come to nothing yet. -/
def Answered (g : Kripke) (s : Search) : Work → Prop
  | .job j => j.visitKey ∈ s.visited
  | .todo c link o => s.Heeded g c link o
  | .done _ link => s.Resumed link
  | .fail .. => False
  | .outcome .. => True

/-- What is done as the precondition tells answers the obligation. -/
theorem Answered.of_react {c : Context} {link : Option RevisitId} {o : Obligation}
    {p : Precondition} {finding : Finding} (hh : s.Honest g)
    (hf : s.Truthful g p c.node finding)
    (h : t.Answered g ((p.react c finding).work c link o)) :
    t.Answered g (.todo c link (.revisit o p)) := by
  unfold Precondition.react at h
  rw [Answered, Heeded]
  cases finding with
  | holds =>
    cases hk : p.kind with
    | required =>
      rw [hk] at h
      exact .inl ⟨hf hh, h⟩
    | skip =>
      rw [hk] at h
      exact .inl ⟨hf hh, h⟩
    | ignored =>
      rw [hk] at h
      exact absurd h id
  | fails x =>
    cases hk : p.kind with
    | required =>
      rw [hk] at h
      exact absurd h id
    | skip =>
      rw [hk] at h
      exact .inr h
    | ignored =>
      rw [hk] at h
      exact ⟨hf.2 hh, h⟩
  | budget x => exact absurd hf id

theorem Answered.of_jobs {c : Context} {link : Option RevisitId} {o : Obligation}
    {jobs : List Job} (hj : o.jobs? g c link = some jobs)
    (h : ∀ j ∈ jobs, t.Answered g (.job j)) : t.Answered g (.todo c link o) := by
  cases o with
  | here | successors | step | constrain =>
    intro jobs' hj' j hjm
    obtain rfl := Option.some.inj (hj.symm.trans hj')
    exact h j hjm
  | revisit => cases hj

end Search

/-- Work is answered by what answers the work that a move makes of it. -/
theorem Move.answered (h : Move g s t) (hv : s.Valid g)
    (hi : s.All base fun x => s.Reached f x ∧ s.Due g f x) (hf : f.isWindowFree = true)
    (he : t.Extends u) (hh : u.Honest g) {k : Task} {ts : List Task} (hts : s.tasks = k :: ts)
    (hx : k.subject? s = some x) (ho : u.Open x.session)
    (hall : ∀ y, t.Has y → y.session = x.session → u.Answered g y) : u.Answered g x := by
  have hsu := h.extends.trans he
  have hhs := hh.of_extends hsu
  have hlate (hs : s.Settled x.session) : False := (hsu.settled hs).not_open ho
  have houtcome {i : SessionId} {result : SessionResult} (hr : s.result? (some i) = some result)
      (hne : result ≠ .pending) : s.Due g f (.outcome i result) := by
    obtain ⟨v, hiv, rfl⟩ := Option.map_eq_some_iff.mp hr
    exact (hi.results i v hiv hne).2
  cases h with
  | notify ht | take ht => cases hts.symm.trans ht
  | stale ht hs =>
    cases hts.symm.trans ht
    cases hx
    exact absurd hs hlate
  | repeated ht _ hkey =>
    cases hts.symm.trans ht
    cases hx
    exact hsu.visited _ hkey
  | visit ht =>
    cases hts.symm.trans ht
    cases hx
    exact he.visited _ (List.mem_append_right _ List.mem_cons_self)
  | spawn ht hj =>
    cases hts.symm.trans ht
    cases hx
    refine .of_jobs hj fun j hjm => hall _ (.job (List.mem_append_right _ hjm)) ?_
    exact Obligation.session_jobs hj j hjm
  | judge ht hp hn hj =>
    cases hts.symm.trans ht
    cases hx
    obtain ⟨-, ⟨hfits, -⟩, -⟩ := hi.head ht _ rfl
    have hw := (hfits.1.isWindowFree hf).2
    refine .of_react hhs ?_ (hall _ (Reaction.has (List.subset_append_left _ _))
      (Reaction.session_work _))
    rcases judge_of_window_eq_empty hw hn hj with ⟨rfl, hholds⟩ | ⟨rfl, hnot⟩
    · exact fun _ => hholds
    · exact ⟨rfl, fun _ => hnot⟩
  | @require n c link o p _ ht hp hk =>
    cases hts.symm.trans ht
    cases hx
    have hdemand := hall _ (.job (List.mem_append_right _ List.mem_cons_self)) rfl
    have hrec : ((s.suspend ⟨c, o, p, link⟩).push c.session
        [c.demand p.formula s.nextRevisit]).record? s.nextRevisit =
          some ⟨⟨c, o, p, link⟩, false⟩ := by
      rw [Search.record?, Search.push, Search.revisits_retain]
      exact Numbered.get?_concat_self _ _
    obtain ⟨b, hb, -⟩ := he.entry _ _ hrec
    rw [Search.Answered, Search.Heeded, hk]
    exact .inr ⟨_, b, hb, hdemand⟩
  | @inquire n c link o p _ ht =>
    cases hts.symm.trans ht
    cases hx
    refine hall _ (.of_suspend (r := ⟨c, o, p, link⟩) (((Search.extends_openSession _ _ _).trans
      (Search.extends_retain _ 1 c.session)).withTasks ts) ?_) rfl
    exact (List.Perm.of_eq ((Search.parked_retain _ 1 c.session).trans
      (Search.parked_openSession _ _ _))).mem_iff.mpr
        (List.mem_append_right _ List.mem_cons_self)
  | @join n c link o p _ i ht _ _ _ hopen =>
    cases hts.symm.trans ht
    cases hx
    refine hall _ (.of_suspend (r := ⟨c, o, p, link⟩) (((Search.extends_join _ _ _).trans
      (Search.extends_retain _ 1 c.session)).withTasks ts) ?_) rfl
    obtain ⟨v, hiv, -⟩ := Option.map_eq_some_iff.mp hopen
    exact ((List.Perm.of_eq (Search.parked_retain _ 1 c.session)).trans
      (Search.parked_join (s := s.suspend _) hiv s.nextRevisit)).mem_iff.mpr
        (List.mem_append_right _ List.mem_cons_self)
  | answerLate ht _ _ _ _ hs =>
    cases hts.symm.trans ht
    cases hx
    exact absurd hs hlate
  | @answer n c link o p _ i v finding ht hp hk hkey hiv hfind hopen =>
    cases hts.symm.trans ht
    cases hx
    have hr : s.result? (some i) = some v.result := by rw [Search.result?, hiv, Option.map_some]
    have hne : v.result ≠ .pending := fun hp => by
      rw [hp] at hfind
      cases hfind
    exact .of_react hhs ((houtcome hr hne).truthful hkey hr hfind)
      (hall _ (Reaction.has (List.subset_append_left _ _)) (Reaction.session_work _))
  | resumeNone ht =>
    cases hts.symm.trans ht
    cases hx
    exact fun i hi => by cases hi
  | resumeAgain ht hrec hr =>
    cases hts.symm.trans ht
    cases hx
    refine Search.Resumed.extends (s := s) (fun i hi => ?_) hsu
    cases hi
    exact ⟨_, hrec, hr⟩
  | resumeLate ht hrec | resume ht hrec =>
    cases hts.symm.trans ht
    cases hx
    exact (Search.resumed_markResumed hrec _).extends he
  | @tellLate result w _ e ht hrec hs =>
    cases hts.symm.trans ht
    rw [Task.subject?, hrec] at hx
    cases hx
    obtain ⟨-, -, -, hne⟩ := hv.head ht
    exact absurd (hs.resolve_left hne) hlate
  | @tell result w _ e finding ht hrec hfind hopen =>
    cases hts.symm.trans ht
    rw [Task.subject?, hrec] at hx
    cases hx
    obtain ⟨i, ⟨e', he', -, -, hkey⟩, hr, hne⟩ := hv.head ht
    obtain rfl := Option.some.inj (hrec.symm.trans he')
    exact .of_react hhs ((houtcome hr hne).truthful hkey hr hfind)
      (hall _ (Reaction.has (List.subset_append_left _ _)) (Reaction.session_work _))
  | exceed ht hb =>
    cases hts.symm.trans ht
    cases hx
    obtain ⟨-, -, hno, -⟩ := hi.head ht _ rfl
    cases hb.symm.trans hno
  | @decide i y _ ht hb hopen =>
    cases hts.symm.trans ht
    cases hx
    have hres : (s.complete i (.fail y)).result? (some i) = some (.fail y) := by
      rw [Search.result?_complete s hopen, if_pos rfl]
    exact absurd ho (Search.Settled.not_open (he.settled ⟨.fail y, hres, by simp⟩))
  | decideLate ht hb hs =>
    cases hts.symm.trans ht
    cases hx
    exact absurd hs hlate
  | releaseNone ht | release ht | finish ht =>
    cases hts.symm.trans ht
    cases hx

/-! ### What was begun -/

/-- A visit is made by a job, which is unfolded then. -/
theorem Move.visited_cases (h : Move g s t) : t.visited = s.visited ∨
    ∃ j ts node v, s.tasks = .process j :: ts ∧ g.node? j.node = some node ∧
      j.formula.unfold (j.position node) = .ok v ∧ t.visited = s.visited ++ [j.visitKey] ∧
      t.Has (v.work j) := by
  cases h with
  | @visit j ts node v ht _ _ hn hv =>
    exact .inr ⟨j, ts, node, v, ht, hn, hv, rfl, Unfolding.has (List.subset_append_left _ _)⟩
  | @spawn n c => exact .inl (Search.visited_retain _ _ c.session)
  | @require n c => exact .inl (Search.visited_retain _ _ c.session)
  | @inquire n c => exact .inl (Search.visited_retain _ _ c.session)
  | @join n c => exact .inl (Search.visited_retain _ _ c.session)
  | notify | take | stale | repeated | judge | answerLate | answer | resumeNone | resumeAgain
    | resumeLate | resume | tellLate | tell | exceed | decide | decideLate | releaseNone | release
    | finish => exact .inl rfl

/-- A session is opened with its first job. -/
theorem Move.key_cases (h : Move g s t) {i : SessionId} {k : SessionKey}
    (hi : t.key? i = some k) : s.key? i = some k ∨
      ∃ n c link o p ts, s.tasks = .execute n c link (.revisit o p) :: ts ∧
        k = (c.inquiry p.formula).sessionKey ∧
        t.Has (.job { c.inquiry p.formula with session := some i }) := by
  cases h with
  | @spawn n c | @require n c =>
    rw [Search.key?, Search.withTasks, Search.push, Search.keys_retain] at hi
    exact .inl hi
  | @inquire n c link o p ts ht =>
    rw [Search.key?, Search.withTasks, Search.keys_retain] at hi
    refine (Search.key?_openSession.mp hi).imp_right fun hopened => ?_
    obtain ⟨hnew, hk⟩ := hopened
    refine ⟨n, c, link, o, p, ts, ht, hk, .job ?_⟩
    rw [Search.withTasks, Search.queue_retain, hnew]
    exact List.mem_append_right _ List.mem_cons_self
  | @join n c =>
    rw [Search.key?, Search.withTasks, Search.keys_retain] at hi
    exact .inl hi
  | notify | take | stale | repeated | visit | judge | answerLate | answer | resumeNone
    | resumeAgain | resumeLate | resume | tellLate | tell | exceed | decide | decideLate
    | releaseNone | release | finish => exact .inl hi

namespace Search

/-- The visit was made by a job, and what the job led to was answered. -/
inductive Closed (g : Kripke) (exempt : Bool) (s : Search) : VisitKey → Prop where
  | of_job {j : Job} {node : Node} {v : Unfolding} (plain : j.Plain)
      (paced : (Work.job j).Paced exempt) (marked : s.Marked (.job j))
      (hn : g.node? j.node = some node) (hv : j.formula.unfold (j.position node) = .ok v)
      (answered : s.Answered g (v.work j)) : Closed g exempt s j.visitKey

/-- What was begun for the session in the one search was answered in the other. -/
structure Concludes (g : Kripke) (exempt : Bool) (fs : List Formula)
    (session : Option SessionId) (s t : Search) : Prop where
  visited : ∀ k ∈ s.visited, k.session = session → t.Closed g exempt k
  resumed : ∀ i e, s.record? i = some e → e.resumed = true → e.revisit.session = session →
    t.Answered g e.revisit.rest
  opened : ∀ i k, session = some i → s.key? i = some k →
    ⟨k.node, k.formula, false, ∅, .zero, none, some i⟩ ∈ t.visited
  roots : session = none → ∀ f ∈ fs, ∀ i ∈ g.initial,
    (Job.root i f.universal).visitKey ∈ t.visited

/-- A later search that answers the work left for a session has answered what was begun for it. -/
def Tends (g : Kripke) (exempt : Bool) (fs : List Formula) (s : Search) : Prop :=
  ∀ t session, s.Extends t → t.Honest g → t.Open session →
    (∀ x, s.Has x → x.session = session → t.Answered g x) → Concludes g exempt fs session s t

end Search

theorem Move.tends {exempt : Bool} {fs : List Formula} (h : Move g s t) (hs : s.Tends g exempt fs)
    (hv : s.Valid g) (hi : s.All base fun x => s.Reached f x ∧ s.Due g f x)
    (hf : f.isWindowFree = true) (hu : f.isUniversal = true) (hp : s.All base (Work.Paced exempt))
    (hm : s.All base s.Marked) : t.Tends g exempt fs := by
  intro u session he hh ho hall
  have hsu := h.extends.trans he
  -- whatever was begun before the move was answered, since the work left by then was
  have hc := hs u session hsu hh ho fun x hx hses => by
    rcases h.has hx with hx | ⟨k, ts, hts, hsub⟩
    · exact hall x hx hses
    · exact h.answered hv hi hf he hh hts hsub (hses ▸ ho) fun y hy hsy =>
        hall y hy (hsy.trans hses)
  refine ⟨fun k hk hses => ?_, fun i e hrec hr hses => ?_, fun i k hsession hkey => ?_, hc.roots⟩
  · rcases h.visited_cases with heq | ⟨j, ts, node, v, ht, hn, hunfold, heq, hhas⟩
    · exact hc.visited k (heq ▸ hk) hses
    · rw [heq, List.mem_append, List.mem_singleton] at hk
      rcases hk with hk | rfl
      · exact hc.visited k hk hses
      · obtain ⟨-, ⟨hpart, -⟩, hflat, -⟩ := hi.head ht _ rfl
        refine .of_job ⟨(hpart.isWindowFree hf).2, hpart.isUniversal hu, (hpart.isWindowFree hf).1,
          hflat⟩ (hp.head ht _ rfl).2 (fun i hi => hsu.visited _ ((hm.head ht _ rfl).2 i hi)) hn
          hunfold (hall _ hhas ?_)
        rw [Unfolding.session_work]
        exact hses
  · rcases h.resumed_cases hrec hr with hrec | ⟨n, c, ts, -, -, hset | hts⟩
    · exact hc.resumed i e hrec hr hses
    · exact absurd ho (Search.Settled.not_open (hsu.settled (hses ▸ hset)))
    · have hhas : t.Has e.revisit.rest := .task (hts ▸ List.mem_cons_self) rfl
      exact hall _ hhas hses
  · rcases h.key_cases hkey with hkey | ⟨n, c, link, o, p, ts, ht, rfl, hhas⟩
    · exact hc.opened i k hsession hkey
    · have hjob := hall _ hhas hsession.symm
      obtain ⟨-, ⟨hfits, -⟩, -⟩ := hi.head ht _ rfl
      rw [Search.Answered, Job.visitKey_eq (hfits.1.isWindowFree hf).2] at hjob
      exact hjob

section Course

variable {order : PendingOrder} {fs : List Formula} {past : Search}

/-- In a check of paced requirements, what is begun waits for nothing but the work that is left. -/
theorem Course.tends (exempt : Bool) (h : Course g order fs past s)
    (hw : ∀ f ∈ fs, f.isWindowFree = true)
    (hp : ∀ f ∈ fs, f.universal.isPaced (paceOf exempt none none) = true) :
    s.Tends g exempt fs := by
  induction h with
  | start =>
    intro t session _ _ _ _
    refine ⟨fun k hk => (by cases hk), fun i e hi => ?_, fun i k _ hi => ?_,
      fun _ f hf => by cases hf⟩
    · obtain ⟨n, -, hn⟩ := Numbered.get?_eq_some_iff.mp hi
      cases hn
    · obtain ⟨n, -, hn⟩ := Numbered.get?_eq_some_iff.mp hi
      cases hn
  | @seed fs past s before hs f ih =>
    intro t session he hh ho hall
    have hhas {x : Work} (hx : s.Has x) : (s.seed g f.universal).Has x := by
      cases hx with
      | job hj => exact .job (List.mem_append_left _ hj)
      | task hk hx => exact .task hk hx
      | waiter hw hrec => exact .waiter hw hrec
    obtain ⟨hvisited, hresumed, hopened, hroots⟩ :=
      ih (fun e he => hw e (List.mem_cons_of_mem _ he))
        (fun e he => hp e (List.mem_cons_of_mem _ he)) t session ((s.extends_seed g _).trans he)
        hh ho fun x hx => hall x (hhas hx)
    refine ⟨hvisited, hresumed, hopened, fun hsession e he i hi => ?_⟩
    rcases List.mem_cons.mp he with rfl | he
    · exact hall _ (.job (List.mem_append_right _ (List.mem_map_of_mem hi))) hsession.symm
    · exact hroots hsession e he i hi
  | @move fs past s t before hm ih =>
    exact hm.tends (ih hw hp) before.valid_accounts.1 (before.reached.and (before.due hw))
      (isWindowFree_current hw) (isUniversal_universal _) (before.paced hp) (before.marked hw)

end Course

end CostCTL
