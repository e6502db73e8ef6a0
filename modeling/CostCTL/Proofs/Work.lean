import CostCTL.Proofs.Account

/-!
# Properties of work

The work of a search is in its jobs, its tasks, its suspended revisits and the results of its
sessions. A property of work is handed on: from a job to what its formula unfolds to, from an
obligation to its jobs, from a violation to the result of a session (`Hands`). Once it is known for
each way to hand on, it holds of all work after every move (`Move.all`).

Only work of the current requirement counts. Revisits up to `base` belong to earlier ones.
-/

namespace CostCTL

variable {g : Kripke} {s t : Search} {base : Nat}

/-- A piece of work, or what came of it. -/
inductive Work where
  | job (j : Job)
  /-- an obligation, to be executed now or once its precondition is known -/
  | todo (c : Context) (link : Option RevisitId) (o : Obligation)
  /-- what was to be done in the context is done -/
  | done (c : Context) (link : Option RevisitId)
  | fail (session : Option SessionId) (x : Counterexample)
  | outcome (i : SessionId) (result : SessionResult)

def Work.link : Work → Option RevisitId
  | .job j => j.link
  | .todo _ link _ | .done _ link => link
  | .fail .. | .outcome .. => none

def Task.work? : Task → Option Work
  | .process j => some (.job j)
  | .execute _ c link o => some (.todo c link o)
  | .resume _ c link => some (.done c link)
  | .fail session x => some (.fail session x)
  | .release _ | .tell .. => none

def Reaction.work (c : Context) (link : Option RevisitId) (o : Obligation) : Reaction → Work
  | .proceed => .todo c link o
  | .met => .done c link
  | .fail x => .fail c.session x

def Unfolding.work (j : Job) : Unfolding → Work
  | .pass => .done j.toContext j.link
  | .fail v => .fail j.session (j.counterexample v)
  | .obligation o => .todo j.toContext j.link o

def Revisit.work (r : Revisit) : Work :=
  .todo r.toContext r.parent (.revisit r.resume r.precondition)

/-- The link of the work, if any, is a revisit of the current requirement. -/
def Work.Fresh (base : Nat) (x : Work) : Prop := ∀ i, x.link = some i → base < i.index

/-- The task is about work with the property. -/
def Task.All (base : Nat) (P : Work → Prop) : Task → Prop
  | .tell _ w => base < w.index
  | k => ∀ x, k.work? = some x → x.Fresh base ∧ P x

structure Search.All (base : Nat) (P : Work → Prop) (s : Search) : Prop where
  base_le : base ≤ s.revisits.length
  queue : ∀ j ∈ s.queue, (Work.job j).Fresh base ∧ P (.job j)
  tasks : ∀ k ∈ s.tasks, k.All base P
  revisits : ∀ i e, s.record? i = some e → base < i.index →
    e.revisit.work.Fresh base ∧ P e.revisit.work
  waiters : ∀ i t, s.session? i = some t → ∀ w ∈ t.waiters.toList, base < w.index
  results : ∀ i t, s.session? i = some t → t.result ≠ .pending → P (.outcome i t.result)
  exceeded : ∀ i t x, s.session? i = some t → t.exceeded = some x → P (.outcome i (.exceeded x))

/-- The property is handed on, from work that also has the property `P`. -/
structure Hands (g : Kripke) (base : Nat) (P Q : Search → Work → Prop) : Prop where
  mono : ∀ {s t : Search} {x : Work}, s.Extends t → Q s x → Q t x
  unfold : ∀ {s : Search} {j : Job} {node : Node} {u : Unfolding}, s.Valid g →
    s.Open j.session → P s (.job j) → Q s (.job j) → g.node? j.node = some node →
    j.formula.unfold (j.position node) = .ok u →
    Q { s with visited := s.visited ++ [j.visitKey] } (u.work j)
  spawn : ∀ {s : Search} {c : Context} {link : Option RevisitId} {o : Obligation}
    {jobs : List Job}, s.Valid g → s.Known g c link → P s (.todo c link o) → Q s (.todo c link o) →
    o.jobs? g c link = some jobs → ∀ j ∈ jobs, Q s (.job j)
  judge : ∀ {s : Search} {c : Context} {link : Option RevisitId} {o : Obligation}
    {p : Precondition} {node : Node} {judgement : Judgement}, s.Valid g →
    P s (.todo c link (.revisit o p)) → Q s (.todo c link (.revisit o p)) →
    p.formula.isState = true → g.node? c.node = some node →
    p.formula.judge (c.position node) = .ok judgement →
    Q s ((p.react c (.ofJudgement c judgement)).work c link o)
  answer : ∀ {s : Search} {c : Context} {link : Option RevisitId} {o : Obligation}
    {p : Precondition} {i : SessionId} {result : SessionResult} {finding : Finding}, s.Valid g →
    P s (.todo c link (.revisit o p)) → Q s (.todo c link (.revisit o p)) →
    p.formula.isState = false → p.kind ≠ .required →
    s.key? i = some (c.inquiry p.formula).sessionKey → s.result? (some i) = some result →
    P s (.outcome i result) → Q s (.outcome i result) → Finding.ofResult? result = some finding →
    s.Open c.session → Q s ((p.react c finding).work c link o)
  require : ∀ {s : Search} {c : Context} {link : Option RevisitId} {o : Obligation}
    {p : Precondition}, s.Valid g → P s (.todo c link (.revisit o p)) →
    Q s (.todo c link (.revisit o p)) → p.formula.isState = false → p.kind = .required →
    Q (s.suspend ⟨c, o, p, link⟩) (.job (c.demand p.formula s.nextRevisit))
  inquire : ∀ {s : Search} {c : Context} {link : Option RevisitId} {o : Obligation}
    {p : Precondition}, s.Valid g → P s (.todo c link (.revisit o p)) →
    Q s (.todo c link (.revisit o p)) → p.formula.isState = false → p.kind ≠ .required →
    (c.inquiry p.formula).sessionKey ∉ s.keys →
    Q ((s.suspend ⟨c, o, p, link⟩).openSession (c.inquiry p.formula) s.nextRevisit)
      (.job { c.inquiry p.formula with session := some s.nextSession })
  resume : ∀ {s : Search} {c : Context} {i : RevisitId} {e : RevisitEntry}, s.Valid g →
    P s (.done c (some i)) → Q s (.done c (some i)) → s.record? i = some e → e.resumed = false →
    P s e.revisit.work → Q s e.revisit.work → s.Open e.revisit.session →
    Q s (.todo e.revisit.toContext e.revisit.parent e.revisit.resume)
  exceed : ∀ {s : Search} {i : SessionId} {x : Counterexample}, s.Valid g →
    P s (.fail (some i) x) → Q s (.fail (some i) x) → x.violation.isBudget = true →
    Q s (.outcome i (.exceeded x))
  settle : ∀ {s : Search} {i : SessionId} {x : Counterexample}, s.Valid g →
    P s (.fail (some i) x) → Q s (.fail (some i) x) → x.violation.isBudget = false →
    s.Open (some i) → Q s (.outcome i (.fail x))
  pass : ∀ {s : Search} {i : SessionId} {u : Session} {ts : List Task}, s.Valid g → s.Accounts →
    s.All base (P s) → s.All base (Q s) → s.tasks = .release (some i) :: ts →
    s.session? i = some u → u.outstanding = 1 → u.result = .pending → u.exceeded = none →
    Q s (.outcome i .pass)

namespace Search.All

variable {R : Work → Prop} {k : Task} {ts : List Task}

theorem imp {R' : Work → Prop} (h : s.All base R) (hR : ∀ x, R x → R' x) : s.All base R' where
  base_le := h.base_le
  queue j hj := ⟨(h.queue j hj).1, hR _ (h.queue j hj).2⟩
  tasks k hk := by
    have := h.tasks k hk
    cases k with
    | tell result w => exact this
    | process | execute | resume | fail | release =>
      exact fun x hx => ⟨(this x hx).1, hR x (this x hx).2⟩
  revisits i e hi hb := ⟨(h.revisits i e hi hb).1, hR _ (h.revisits i e hi hb).2⟩
  waiters := h.waiters
  results i t hi hr := hR _ (h.results i t hi hr)
  exceeded i t x hi hx := hR _ (h.exceeded i t x hi hx)

theorem and {R' : Work → Prop} (h : s.All base R) (h' : s.All base R') :
    s.All base fun x => R x ∧ R' x where
  base_le := h.base_le
  queue j hj := ⟨(h.queue j hj).1, (h.queue j hj).2, (h'.queue j hj).2⟩
  tasks k hk := by
    have ht := h.tasks k hk
    have ht' := h'.tasks k hk
    cases k with
    | tell result w => exact ht
    | process | execute | resume | fail | release =>
      exact fun x hx => ⟨(ht x hx).1, (ht x hx).2, (ht' x hx).2⟩
  revisits i e hi hb := ⟨(h.revisits i e hi hb).1, (h.revisits i e hi hb).2, (h'.revisits i e hi hb).2⟩
  waiters := h.waiters
  results i t hi hr := ⟨h.results i t hi hr, h'.results i t hi hr⟩
  exceeded i t x hi hx := ⟨h.exceeded i t x hi hx, h'.exceeded i t x hi hx⟩

theorem withTasks (h : s.All base R) (ht : ∀ k ∈ ts, k.All base R) :
    (s.withTasks ts).All base R :=
  ⟨h.base_le, h.queue, ht, h.revisits, h.waiters, h.results, h.exceeded⟩

theorem head (h : s.All base R) (ht : s.tasks = k :: ts) : k.All base R :=
  h.tasks k (by rw [ht]; exact List.mem_cons_self)

theorem tail (h : s.All base R) (ht : s.tasks = k :: ts) : ∀ k' ∈ ts, k'.All base R :=
  fun k' hk' => h.tasks k' (by rw [ht]; exact List.mem_cons_of_mem _ hk')

/-- The first task gives way to others. -/
theorem replace (h : s.All base R) (ht : s.tasks = k :: ts) {l : List Task}
    (hn : ∀ k' ∈ l, k'.All base R) : ∀ k' ∈ l ++ ts, k'.All base R :=
  fun k' hk' => (List.mem_append.mp hk').elim (hn k') (h.tail ht k')

/-- A change of one session that adds no waiter. -/
theorem modifySession (h : s.All base R) {i : SessionId} {f : Session → Session}
    (hw : ∀ u, s.session? i = some u → ∀ w ∈ (f u).waiters.toList, base < w.index)
    (hr : ∀ u, s.session? i = some u → (f u).result ≠ .pending → R (.outcome i (f u).result))
    (hx : ∀ u x, s.session? i = some u → (f u).exceeded = some x → R (.outcome i (.exceeded x))) :
    (s.modifySession i f).All base R := by
  have hsess {m : SessionId} {v : Session} (hm : (s.modifySession i f).session? m = some v) :
      (m = i ∧ ∃ u, s.session? i = some u ∧ v = f u) ∨ s.session? m = some v := by
    rw [session?_modifySession] at hm
    split at hm
    · next heq =>
      obtain ⟨u, hu, rfl⟩ := Option.map_eq_some_iff.mp hm
      exact .inl ⟨heq, u, heq ▸ hu, rfl⟩
    · exact .inr hm
  refine ⟨h.base_le, h.queue, h.tasks, h.revisits, fun m v hm => ?_, fun m v hm => ?_,
    fun m v x hm => ?_⟩
  · rcases hsess hm with ⟨rfl, u, hu, rfl⟩ | hm
    · exact hw u hu
    · exact h.waiters m v hm
  · rcases hsess hm with ⟨rfl, u, hu, rfl⟩ | hm
    · exact hr u hu
    · exact h.results m v hm
  · rcases hsess hm with ⟨rfl, u, hu, rfl⟩ | hm
    · exact hx u x hu
    · exact h.exceeded m v x hm

theorem retain (h : s.All base R) (n : Nat) (session : Option SessionId) :
    (s.retain n session).All base R := by
  cases session with
  | none => exact h
  | some i => exact h.modifySession (h.waiters i) (h.results i) (h.exceeded i)

theorem push (h : s.All base R) {session : Option SessionId} {jobs : List Job}
    (hj : ∀ j ∈ jobs, (Work.job j).Fresh base ∧ R (.job j)) : (s.push session jobs).All base R := by
  have hr := h.retain jobs.length session
  refine ⟨hr.base_le, fun j hj' => ?_, hr.tasks, hr.revisits, hr.waiters, hr.results, hr.exceeded⟩
  exact (List.mem_append.mp hj').elim (h.queue j) (hj j)

theorem suspend (h : s.All base R) (r : Revisit) (hr : r.work.Fresh base ∧ R r.work) :
    (s.suspend r).All base R := by
  refine ⟨?_, h.queue, h.tasks, fun i e hi hb => ?_, h.waiters, h.results, h.exceeded⟩
  · have := h.base_le
    simp only [Search.suspend, List.length_append, List.length_singleton]
    omega
  · rcases Numbered.get?_concat_eq_some.mp hi with hi | ⟨-, rfl⟩
    · exact h.revisits i e hi hb
    · exact hr

theorem markResumed (h : s.All base R) (i : RevisitId) : (s.markResumed i).All base R := by
  refine ⟨?_, h.queue, h.tasks, fun k e hk hb => ?_, h.waiters, h.results, h.exceeded⟩
  · simp only [Search.markResumed, Numbered.length_modify]
    exact h.base_le
  · rw [record?_markResumed] at hk
    split at hk
    · obtain ⟨e', he', rfl⟩ := Option.map_eq_some_iff.mp hk
      exact h.revisits k e' he' hb
    · exact h.revisits k e hk hb

theorem openSession (h : s.All base R) {root : Job} {w : RevisitId} (hw : base < w.index)
    (hlink : root.link = none) (hroot : R (.job { root with session := some s.nextSession })) :
    (s.openSession root w).All base R := by
  refine ⟨h.base_le, fun j hj => ?_, h.tasks, h.revisits, fun i t hi v hv => ?_,
    fun i t hi hr => ?_, fun i t x hi hx => ?_⟩
  · rcases List.mem_append.mp hj with hj | hj
    · exact h.queue j hj
    · obtain rfl := List.mem_singleton.mp hj
      exact ⟨fun i hi => (by cases hlink.symm.trans hi), hroot⟩
  · rcases Numbered.get?_concat_eq_some.mp hi with hi | ⟨-, rfl⟩
    · exact h.waiters i t hi v hv
    · obtain rfl : v = w := by simpa using hv
      exact hw
  · rcases Numbered.get?_concat_eq_some.mp hi with hi | ⟨-, rfl⟩
    · exact h.results i t hi hr
    · exact absurd rfl hr
  · rcases Numbered.get?_concat_eq_some.mp hi with hi | ⟨-, rfl⟩
    · exact h.exceeded i t x hi hx
    · cases hx

theorem complete (h : s.All base R) {i : SessionId} {result : SessionResult}
    (hr : R (.outcome i result)) : (s.complete i result).All base R := by
  have hm := h.modifySession (f := fun t => { t with result }) (h.waiters i) (fun _ _ _ => hr)
    (h.exceeded i)
  exact ⟨hm.base_le, hm.queue, hm.tasks, hm.revisits, hm.waiters, hm.results, hm.exceeded⟩

end Search.All

/-- The tasks of a reaction are about its work. -/
theorem Reaction.tasks_all {R : Work → Prop} {c : Context} {link : Option RevisitId}
    {o : Obligation} {r : Reaction} (n : Nat)
    (h : (r.work c link o).Fresh base ∧ R (r.work c link o)) :
    ∀ k ∈ r.tasks n c link o, k.All base R := by
  intro k hk
  cases r with
  | proceed | met | fail =>
    obtain rfl := List.mem_singleton.mp hk
    rintro x ⟨⟩
    exact h

theorem Unfolding.tasks_all {R : Work → Prop} {j : Job} {u : Unfolding}
    (h : (u.work j).Fresh base ∧ R (u.work j)) : ∀ k ∈ u.tasks j, k.All base R := by
  intro k hk
  cases u with
  | pass | fail | obligation =>
    obtain rfl := List.mem_singleton.mp hk
    rintro x ⟨⟩
    exact h

theorem Reaction.fresh_work {c : Context} {link : Option RevisitId} {o o' : Obligation}
    (h : (Work.todo c link o').Fresh base) (r : Reaction) : (r.work c link o).Fresh base := by
  cases r with
  | proceed | met => exact h
  | fail x => exact fun i hi => by cases hi

theorem Unfolding.fresh_work {j : Job} (h : (Work.job j).Fresh base) (u : Unfolding) :
    (u.work j).Fresh base := by
  cases u with
  | pass | obligation => exact h
  | fail x => exact fun i hi => by cases hi

theorem Obligation.link_jobs {c : Context} {link : Option RevisitId} {o : Obligation}
    {jobs : List Job} (hj : o.jobs? g c link = some jobs) : ∀ j ∈ jobs, j.link = link := by
  cases o with
  | here f =>
    cases hj
    simp
  | successors f | step f =>
    cases hj
    intro j hj
    obtain ⟨e, -, rfl⟩ := List.mem_map.mp hj
    rfl
  | constrain f w =>
    rw [Obligation.jobs?] at hj
    split at hj
    · cases hj
      simp
    · cases hj
  | revisit o p => cases hj

open Search

theorem Search.All.base_lt_nextRevisit {R : Work → Prop} (h : s.All base R) :
    base < s.nextRevisit.index := by
  have := h.base_le
  simp only [nextRevisit]
  omega

theorem Move.all {P Q : Search → Work → Prop} (hm : Move g s t) (hv : s.Valid g)
    (ha : s.Accounts) (hands : Hands g base P Q) (hp : s.All base (P s)) (hq : s.All base (Q s)) :
    t.All base (Q t) := by
  have hx := hm.extends
  have h : s.All base (Q t) := hq.imp fun x => hands.mono hx
  -- the results of sessions whose waiters are told
  have houtcome {i : SessionId} {r : SessionResult} (hr : s.result? (some i) = some r)
      (hne : r ≠ .pending) : P s (.outcome i r) ∧ Q s (.outcome i r) := by
    obtain ⟨u, hu, rfl⟩ := Option.map_eq_some_iff.mp hr
    exact ⟨hp.results i u hu hne, hq.results i u hu hne⟩
  cases hm with
  | @notify i rest u ht hr hi =>
    have hd : (s.dismiss i).All base _ :=
      h.modifySession (by simp) (h.results i) (h.exceeded i)
    refine ⟨hd.base_le, hd.queue, fun k hk => ?_, hd.revisits, hd.waiters, hd.results, hd.exceeded⟩
    obtain ⟨w, hw, rfl⟩ := List.mem_map.mp hk
    exact h.waiters i u hi w hw
  | @take j rest ht hr hj =>
    have hmem (j' : Job) : j' ∈ s.queue ↔ j' ∈ j :: rest := hj.perm.mem_iff
    refine ⟨h.base_le, fun j' hj' => h.queue j' ((hmem j').mpr (.tail _ hj')), fun k hk => ?_,
      h.revisits, h.waiters, h.results, h.exceeded⟩
    obtain rfl := List.mem_singleton.mp hk
    rintro x ⟨⟩
    exact h.queue j ((hmem j).mpr (.head _))
  | stale ht _ | repeated ht _ _ =>
    exact h.withTasks (h.replace ht (l := [_]) (by simp [Task.All, Task.work?]))
  | @visit j ts node u ht ho hnew hn hu =>
    obtain ⟨hfresh, hpj⟩ := hp.head ht _ rfl
    have hwork := hands.mono ((Extends.refl _).withTasks (u.tasks j ++ .release j.session :: ts))
      (hands.unfold hv ho hpj (hq.head ht _ rfl).2 hn hu)
    refine ⟨h.base_le, h.queue, fun k hk => ?_, h.revisits, h.waiters, h.results, h.exceeded⟩
    rcases List.mem_append.mp hk with hk | hk
    · exact u.tasks_all ⟨u.fresh_work hfresh, hwork⟩ k hk
    · rcases List.mem_cons.mp hk with rfl | hk
      · exact fun x hx => by cases hx
      · exact h.tail ht k hk
  | @spawn n c link o ts jobs ht hj =>
    obtain ⟨hfresh, hpo⟩ := hp.head ht _ rfl
    refine (h.push fun j hjm => ⟨fun i hi => hfresh i ?_, ?_⟩).withTasks (h.tail ht)
    · exact (Obligation.link_jobs hj j hjm).symm.trans hi
    · exact hands.mono hx (hands.spawn hv (hv.head ht).1 hpo (hq.head ht _ rfl).2 hj j hjm)
  | @judge n c link o p ts node judgement ht hs hn hj =>
    obtain ⟨hfresh, hpo⟩ := hp.head ht _ rfl
    refine h.withTasks (h.replace ht (Reaction.tasks_all n ⟨Reaction.fresh_work hfresh _, ?_⟩))
    exact hands.mono hx (hands.judge hv hpo (hq.head ht _ rfl).2 hs hn hj)
  | @require n c link o p ts ht hs hk =>
    obtain ⟨hfresh, hpo⟩ := hp.head ht _ rfl
    have hqo := (hq.head ht _ rfl).2
    have hwork := (hq.head ht _ rfl).2
    refine ((h.suspend ⟨c, o, p, link⟩ ⟨hfresh, hands.mono hx hqo⟩).push fun j hj => ?_).withTasks (h.tail ht)
    obtain rfl := List.mem_singleton.mp hj
    refine ⟨fun i hi => ?_, hands.mono ((extends_push _ _ _).withTasks _)
      (hands.require hv hpo hqo hs hk)⟩
    obtain rfl := Option.some.inj hi
    exact hp.base_lt_nextRevisit
  | @inquire n c link o p ts ht hs hk hkey =>
    obtain ⟨hfresh, hpo⟩ := hp.head ht _ rfl
    have hqo := (hq.head ht _ rfl).2
    refine (((h.suspend ⟨c, o, p, link⟩ ⟨hfresh, hands.mono hx hqo⟩).openSession
      hp.base_lt_nextRevisit rfl ?_).retain 1 c.session).withTasks (h.tail ht)
    exact hands.mono ((extends_retain _ _ _).withTasks _) (hands.inquire hv hpo hqo hs hk hkey)
  | @join n c link o p ts i ht hs hk hkey hi =>
    obtain ⟨hfresh, hpo⟩ := hp.head ht _ rfl
    have hqo := (hq.head ht _ rfl).2
    have hsus := h.suspend ⟨c, o, p, link⟩ ⟨hfresh, hands.mono hx hqo⟩
    have hjoin : ((s.suspend ⟨c, o, p, link⟩).join i s.nextRevisit).All base _ :=
      hsus.modifySession (fun u hu w hw => ?_) (hsus.results i) (hsus.exceeded i)
    · exact (hjoin.retain 1 c.session).withTasks (h.tail ht)
    rw [Deque.toList_pushBack, List.mem_append, List.mem_singleton] at hw
    rcases hw with hw | rfl
    · exact hsus.waiters i u hu w hw
    · exact hp.base_lt_nextRevisit
  | @answerLate n c link o p ts i ht hs hk hkey hi hset =>
    obtain ⟨hfresh, -⟩ := hp.head ht _ rfl
    exact (h.suspend ⟨c, o, p, link⟩ ⟨hfresh, (h.head ht _ rfl).2⟩).withTasks (h.tail ht)
  | @answer n c link o p ts i u finding ht hs hk hkey hi hf ho =>
    obtain ⟨hfresh, hpo⟩ := hp.head ht _ rfl
    have hqo := (hq.head ht _ rfl).2
    have hres : s.result? (some i) = some u.result := by rw [result?, hi]; rfl
    have hne : u.result ≠ .pending := by
      intro heq
      rw [heq] at hf
      cases hf
    refine (h.suspend ⟨c, o, p, link⟩ ⟨hfresh, hands.mono hx hqo⟩).withTasks
      (h.replace ht (Reaction.tasks_all n ⟨Reaction.fresh_work hfresh _, ?_⟩))
    exact hands.mono hx (hands.answer hv hpo hqo hs hk hkey hres (houtcome hres hne).1
      (houtcome hres hne).2 hf ho)
  | resumeNone ht | resumeAgain ht _ _ | decideLate ht _ _ | releaseNone ht =>
    exact h.withTasks (h.tail ht)
  | resumeLate ht _ _ _ => exact (h.markResumed _).withTasks (h.tail ht)
  | @resume n c i ts e ht hi hr ho =>
    obtain ⟨hfresh, hpd⟩ := hp.head ht _ rfl
    have hlive : base < i.index := hfresh i rfl
    obtain ⟨hrfresh, hpr⟩ := hp.revisits i e hi hlive
    refine (h.markResumed i).withTasks (h.replace ht (l := [_]) fun k hk => ?_)
    obtain rfl := List.mem_singleton.mp hk
    intro x hxe
    cases hxe
    exact ⟨hrfresh, hands.mono hx (hands.resume hv hpd (hq.head ht _ rfl).2 hi hr hpr
      (hq.revisits i e hi hlive).2 ho)⟩
  | tellLate ht _ _ =>
    exact h.withTasks (h.replace ht (l := [_]) (by simp [Task.All, Task.work?]))
  | @tell result w ts e finding ht hi hf ho =>
    have hlive : base < w.index := hp.head ht
    obtain ⟨i, ⟨e', he', hs, hk, hkey⟩, hres, hne⟩ := hv.head ht
    obtain rfl := Option.some.inj (hi.symm.trans he')
    obtain ⟨hrfresh, hpr⟩ := hp.revisits w e hi hlive
    refine h.withTasks fun k hk' => ?_
    rcases List.mem_append.mp hk' with hk' | hk'
    · refine Reaction.tasks_all _ ⟨Reaction.fresh_work hrfresh _, ?_⟩ k hk'
      exact hands.mono hx (hands.answer hv hpr (hq.revisits w e hi hlive).2 hs hk hkey hres
        (houtcome hres hne).1 (houtcome hres hne).2 hf ho)
    · rcases List.mem_cons.mp hk' with rfl | hk'
      · exact fun x hx => by cases hx
      · exact h.tail ht k hk'
  | @exceed i x ts ht hb =>
    have hexc : (s.exceed i x).All base _ :=
      h.modifySession (h.waiters i) (h.results i) fun u y hu hy => ?_
    · exact hexc.withTasks (h.tail ht)
    cases hold : u.exceeded with
    | none =>
      rw [hold] at hy
      cases hy
      exact hands.mono hx (hands.exceed hv (hp.head ht _ rfl).2 (hq.head ht _ rfl).2 hb)
    | some z =>
      rw [hold] at hy
      cases hy
      exact h.exceeded i u _ hu hold
  | @decide i x ts ht hb hi =>
    exact (h.complete (hands.mono hx (hands.settle hv (hp.head ht _ rfl).2 (hq.head ht _ rfl).2 hb
      hi))).withTasks (h.tail ht)
  | @release i ts u ht hi hn hl =>
    have hrel : (s.release i).All base _ :=
      h.modifySession (h.waiters i) (h.results i) (h.exceeded i)
    exact hrel.withTasks (h.tail ht)
  | @finish i ts u ht hi hn hr =>
    have hrel : (s.release i).All base _ :=
      h.modifySession (h.waiters i) (h.results i) (h.exceeded i)
    have hout : Q s (.outcome i u.outcome) := by
      cases hex : u.exceeded with
      | none =>
        rw [Session.outcome, hex]
        exact hands.pass hv ha hp hq ht hi hn hr hex
      | some x =>
        rw [Session.outcome, hex]
        exact hq.exceeded i u x hi hex
    exact (hrel.complete (hands.mono hx hout)).withTasks (h.tail ht)

end CostCTL
