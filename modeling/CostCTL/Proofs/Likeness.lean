import CostCTL.Proofs.Refutation

/-!
# What a search does not look at

No move depends on the trail of a branch, which is only told in counterexamples. Without a window
none depends on costs either: a history is then asked for its nodes only. So searches that differ in
nothing else (`Search.Alike`) go the same way, move by move (`Move.alike`), and come to results of the
same kinds.
-/

namespace CostCTL

variable {g : Kripke} {free : Prop} {s s' t : Search} {c c' : Context} {j j' : Job}

/-! ### Contexts -/

/-- The contexts differ in their trails, and in costs if these may be `free`. -/
structure Context.Alike (free : Prop) (c c' : Context) : Prop where
  node : c'.node = c.node
  window : c'.window = c.window
  session : c'.session = c.session
  costs : (c'.cost = c.cost ∧ c'.history = c.history) ∨
    (free ∧ c.window = ∅ ∧ ∀ i, c'.history.get? i = none ↔ c.history.get? i = none)

namespace Context.Alike

theorem inCycle (h : c.Alike free c') : c'.inCycle = c.inCycle := by
  rcases h.costs with ⟨hcost, hhist⟩ | ⟨-, hw, hnodes⟩
  · rw [Context.inCycle, hcost, hhist, h.node, h.window]
    rfl
  · rw [Bool.eq_iff_iff, inCycle_iff (h.window.trans hw), inCycle_iff hw, h.node]
    exact not_congr (hnodes c.node)

theorem cost (h : c.Alike free c') : c'.cost = c.cost ∨ c.window = ∅ :=
  h.costs.imp And.left fun h => h.2.1

theorem relevantCost (h : c.Alike free c') : c'.relevantCost = c.relevantCost := by
  rw [Context.relevantCost, Context.relevantCost, h.window]
  rcases h.cost with hcost | hw
  · rw [hcost]
  · rw [hw]
    rfl

theorem sessionKey (h : c.Alike free c') (f : Formula) :
    (c'.inquiry f).sessionKey = (c.inquiry f).sessionKey := by
  have hcost : (c'.inquiry f).relevantCost = (c.inquiry f).relevantCost := h.relevantCost
  rw [Job.sessionKey, hcost]
  simp only [inquiry, h.node, h.window]
  rfl

/-- A formula is looked at afresh, by whichever session. -/
theorem restart (h : c.Alike free c') {session session' : Option SessionId}
    (hs : session' = session) : Context.Alike free { c with history := ∅, session }
      { c' with history := ∅, session := session' } where
  node := h.node
  window := h.window
  session := hs
  costs := h.costs.imp (fun h => ⟨h.1, rfl⟩) fun h => ⟨h.1, h.2.1, fun _ => Iff.rfl⟩

theorem position (h : c.Alike free c') (node : Node) :
    c'.position node = { c.position node with cost := c'.cost } := by
  rw [Context.position, h.inCycle, h.node, h.window]
  rfl

theorem step (h : c.Alike free c') (e : Edge) : (c.follow ∅ e).Alike free (c'.follow ∅ e) where
  node := rfl
  window := h.window
  session := h.session
  costs := h.costs.imp (fun h => ⟨congrArg (· + e.cost) h.1, rfl⟩) fun h =>
    ⟨h.1, h.2.1, fun _ => Iff.rfl⟩

/-- The path formula goes on to a successor. -/
theorem follow (h : c.Alike free c') (e : Edge) :
    (c.follow c.leave e).Alike free (c'.follow c'.leave e) where
  node := rfl
  window := h.window
  session := h.session
  costs := by
    rcases h.costs with ⟨hcost, hhist⟩ | ⟨hfree, hw, hnodes⟩
    · refine .inl ⟨congrArg (· + e.cost) hcost, ?_⟩
      show c'.leave = c.leave
      rw [leave, leave, hcost, hhist, h.node]
    · refine .inr ⟨hfree, hw, fun i => ?_⟩
      show c'.leave.get? i = none ↔ c.leave.get? i = none
      rw [leave, leave, SortedMap.get?_insert, SortedMap.get?_insert, h.node]
      split
      · simp
      · exact hnodes i

end Context.Alike

/-- Without a window a cost makes no difference to a formula. -/
theorem Formula.judge_cost {p : Position} {d : Cost} (h : d = p.cost ∨ p.window = ∅) (f : Formula) :
    f.judge { p with cost := d } = f.judge p := by
  rcases h with rfl | hw
  · rfl
  · unfold Formula.judge
    simp only [hw]
    rfl

theorem Formula.unfold_cost {p : Position} {d : Cost} (h : d = p.cost ∨ p.window = ∅)
    (f : Formula) : f.unfold { p with cost := d } = f.unfold p := by
  have hbefore : ({ p with cost := d } : Position).beforeWindow = p.beforeWindow := by
    rcases h with rfl | hw
    · rfl
    · simp only [Position.beforeWindow, hw]
      rfl
  unfold Formula.unfold Formula.unfoldTemporal Formula.proceed
  rw [judge_cost h, hbefore]

/-! ### Jobs, tasks and records -/

structure Job.Alike (free : Prop) (j j' : Job) : Prop where
  context : j.toContext.Alike free j'.toContext
  formula : j'.formula = j.formula
  link : j'.link = j.link

theorem Job.Alike.visitKey (h : j.Alike free j') : j'.visitKey = j.visitKey := by
  rw [Job.visitKey, h.context.inCycle, h.context.relevantCost, h.context.node, h.context.window,
    h.context.session, h.formula, h.link]
  rfl

theorem Context.Alike.demand (h : c.Alike free c') (f : Formula) (i : RevisitId) :
    (c.demand f i).Alike free (c'.demand f i) :=
  ⟨h.restart h.session, rfl, rfl⟩

/-- Both blame the cost, or both the truth of a formula. -/
def Counterexample.Alike (x x' : Counterexample) : Prop :=
  x'.violation.isBudget = x.violation.isBudget

inductive SessionResult.Alike : SessionResult → SessionResult → Prop where
  | pending : Alike .pending .pending
  | pass : Alike .pass .pass
  | fail {x x' : Counterexample} (h : x.Alike x') : Alike (.fail x) (.fail x')
  | exceeded {x x' : Counterexample} (h : x.Alike x') : Alike (.exceeded x) (.exceeded x')

inductive Finding.Alike : Finding → Finding → Prop where
  | holds : Alike .holds .holds
  | fails {x x' : Counterexample} (h : x.Alike x') : Alike (.fails x) (.fails x')
  | budget {x x' : Counterexample} (h : x.Alike x') : Alike (.budget x) (.budget x')

inductive Reaction.Alike : Reaction → Reaction → Prop where
  | proceed : Alike .proceed .proceed
  | met : Alike .met .met
  | fail {x x' : Counterexample} (h : x.Alike x') : Alike (.fail x) (.fail x')

structure Session.Alike (u v : Session) : Prop where
  result : u.result.Alike v.result
  waiters : v.waiters = u.waiters
  outstanding : v.outstanding = u.outstanding
  exceeded : Option.Rel Counterexample.Alike u.exceeded v.exceeded

structure RevisitEntry.Alike (free : Prop) (e e' : RevisitEntry) : Prop where
  context : e.revisit.toContext.Alike free e'.revisit.toContext
  resume : e'.revisit.resume = e.revisit.resume
  precondition : e'.revisit.precondition = e.revisit.precondition
  parent : e'.revisit.parent = e.revisit.parent
  resumed : e'.resumed = e.resumed

inductive Task.Alike (free : Prop) : Task → Task → Prop where
  | process {j j' : Job} (h : j.Alike free j') : Alike free (.process j) (.process j')
  | execute {c c' : Context} (n : Nat) (link : Option RevisitId) (o : Obligation)
      (h : c.Alike free c') : Alike free (.execute n c link o) (.execute n c' link o)
  | resume (n : Nat) (c c' : Context) (link : Option RevisitId) :
      Alike free (.resume n c link) (.resume n c' link)
  | fail {x x' : Counterexample} (session : Option SessionId) (h : x.Alike x') :
      Alike free (.fail session x) (.fail session x')
  | release (session : Option SessionId) : Alike free (.release session) (.release session)
  | tell {r r' : SessionResult} (i : RevisitId) (h : r.Alike r') :
      Alike free (.tell r i) (.tell r' i)

/-- The searches differ in what no move looks at. -/
structure Search.Alike (free : Prop) (s s' : Search) : Prop where
  order : s'.order = s.order
  queue : List.Forall₂ (Job.Alike free) s.queue s'.queue
  visited : s'.visited = s.visited
  revisits : List.Forall₂ (RevisitEntry.Alike free) s.revisits s'.revisits
  keys : s'.keys = s.keys
  sessions : List.Forall₂ Session.Alike s.sessions s'.sessions
  resolved : s'.resolved = s.resolved
  tasks : List.Forall₂ (Task.Alike free) s.tasks s'.tasks

theorem SessionResult.Alike.pending_iff {r r' : SessionResult} (h : r.Alike r') :
    r' = .pending ↔ r = .pending := by
  cases h <;> simp

theorem SessionResult.Alike.finding {r r' : SessionResult} {finding : Finding} (h : r.Alike r')
    (hf : Finding.ofResult? r = some finding) :
    ∃ finding', Finding.ofResult? r' = some finding' ∧ finding.Alike finding' := by
  cases h with
  | pending => cases hf
  | pass =>
    cases hf
    exact ⟨_, rfl, .holds⟩
  | fail h =>
    cases hf
    exact ⟨_, rfl, .fails h⟩
  | exceeded h =>
    cases hf
    exact ⟨_, rfl, .budget h⟩

theorem Finding.alike_ofJudgement (c c' : Context) (judgement : Judgement) :
    (Finding.ofJudgement c judgement).Alike (.ofJudgement c' judgement) := by
  cases judgement with
  | holds => exact .holds
  | fails v => exact .fails rfl
  | early v | late v => exact .budget rfl

theorem Finding.Alike.react {finding finding' : Finding} (h : finding.Alike finding')
    (p : Precondition) (c c' : Context) : (p.react c finding).Alike (p.react c' finding') := by
  unfold Precondition.react
  cases h with
  | holds =>
    cases p.kind with
    | required => exact .proceed
    | skip => exact .met
    | ignored => exact .fail rfl
  | fails h =>
    cases p.kind with
    | required => exact .fail h
    | skip => exact .proceed
    | ignored => exact .met
  | budget h => exact .fail h

theorem Reaction.Alike.tasks {r r' : Reaction} (h : r.Alike r') (hc : c.Alike free c') (n : Nat)
    (link : Option RevisitId) (o : Obligation) :
    List.Forall₂ (Task.Alike free) (r.tasks n c link o) (r'.tasks n c' link o) := by
  cases h with
  | proceed => exact .cons (.execute n link o hc) .nil
  | met => exact .cons (.resume n c c' link) .nil
  | fail h =>
    rw [Reaction.tasks, Reaction.tasks, hc.session]
    exact .cons (.fail c.session h) .nil

theorem Unfolding.alike_tasks (h : j.Alike free j') (u : Unfolding) :
    List.Forall₂ (Task.Alike free) (u.tasks j) (u.tasks j') := by
  cases u with
  | pass =>
    rw [Unfolding.tasks, Unfolding.tasks, h.link]
    exact .cons (.resume _ _ _ _) .nil
  | fail v =>
    rw [Unfolding.tasks, Unfolding.tasks, h.context.session]
    exact .cons (.fail _ rfl) .nil
  | obligation o =>
    rw [Unfolding.tasks, Unfolding.tasks, h.link]
    exact .cons (.execute _ _ o h.context) .nil

/-- Windows are merged only where costs are the same. -/
theorem Context.Alike.jobs? (h : c.Alike free c') {link : Option RevisitId} {o : Obligation}
    {jobs : List Job} (hj : o.jobs? g c link = some jobs)
    (hfree : ∀ f w, o = .constrain f w → ¬ free) :
    ∃ jobs', o.jobs? g c' link = some jobs' ∧ List.Forall₂ (Job.Alike free) jobs jobs' := by
  have hspread {history history' : History} (f : Formula)
      (hf : ∀ e, (c.follow history e).Alike free (c'.follow history' e)) :
      List.Forall₂ (Job.Alike free) (c.spread g link history f) (c'.spread g link history' f) := by
    rw [spread, spread, h.node]
    exact List.forall₂_map_left_iff.mpr (List.forall₂_map_right_iff.mpr
      (List.forall₂_same.mpr fun e _ => ⟨hf e, rfl, rfl⟩))
  cases o with
  | here f =>
    cases hj
    exact ⟨_, rfl, .cons ⟨h, rfl, rfl⟩ .nil⟩
  | successors f =>
    cases hj
    exact ⟨_, rfl, hspread f h.follow⟩
  | step f =>
    cases hj
    exact ⟨_, rfl, hspread f h.step⟩
  | constrain f w =>
    obtain ⟨hcost, hhist⟩ := h.costs.resolve_right fun h => hfree f w rfl h.1
    rw [Obligation.jobs?] at hj ⊢
    rw [h.window]
    split at hj
    · cases hj
      exact ⟨_, rfl, .cons ⟨⟨h.node, rfl, h.session, .inl ⟨hcost, hhist⟩⟩, rfl, rfl⟩ .nil⟩
    · cases hj
  | revisit => cases hj

theorem Session.Alike.outcome {u v : Session} (h : u.Alike v) : u.outcome.Alike v.outcome := by
  have hx := h.exceeded
  rw [Session.outcome, Session.outcome]
  generalize u.exceeded = x, v.exceeded = x' at hx
  cases hx with
  | none => exact .pass
  | some h => exact .exceeded h

/-! ### The same records -/

namespace Search.Alike

theorem record (h : s.Alike free s') {i : RevisitId} {e : RevisitEntry}
    (hi : s.record? i = some e) : ∃ e', s'.record? i = some e' ∧ e.Alike free e' :=
  Numbered.exists_get?_of_forall₂ h.revisits hi

theorem session (h : s.Alike free s') {i : SessionId} {u : Session}
    (hi : s.session? i = some u) : ∃ v, s'.session? i = some v ∧ u.Alike v :=
  Numbered.exists_get?_of_forall₂ h.sessions hi

theorem key (h : s.Alike free s') {i : SessionId} {k : SessionKey} (hk : s.key? i = some k) :
    s'.key? i = some k := by
  rw [key?, h.keys]
  exact hk

theorem result (h : s.Alike free s') {session : Option SessionId} {r : SessionResult}
    (hr : s.result? session = some r) : ∃ r', s'.result? session = some r' ∧ r.Alike r' := by
  cases session with
  | none =>
    cases hr
    exact ⟨_, rfl, .pending⟩
  | some i =>
    obtain ⟨u, hu, rfl⟩ := Option.map_eq_some_iff.mp hr
    obtain ⟨v, hv, huv⟩ := h.session hu
    exact ⟨v.result, by rw [result?, hv]; rfl, huv.result⟩

theorem opened (h : s.Alike free s') {session : Option SessionId} (ho : s.Open session) :
    s'.Open session := by
  obtain ⟨r', hr', hr⟩ := h.result ho
  rw [Open, hr', hr.pending_iff.mpr rfl]

theorem settled (h : s.Alike free s') {session : Option SessionId} (hs : s.Settled session) :
    s'.Settled session := by
  obtain ⟨r, hr, hp⟩ := hs
  obtain ⟨r', hr', hrr⟩ := h.result hr
  exact ⟨r', hr', mt hrr.pending_iff.mp hp⟩

theorem nextRevisit (h : s.Alike free s') : s'.nextRevisit = s.nextRevisit := by
  rw [Search.nextRevisit, ← h.revisits.length_eq]
  rfl

theorem nextSession (h : s.Alike free s') : s'.nextSession = s.nextSession := by
  rw [Search.nextSession, h.keys]
  rfl

theorem takes (h : s.Alike free s') {rest : List Job} (hq : s.Takes j rest) :
    ∃ j' rest', s'.Takes j' rest' ∧ j.Alike free j' ∧
      List.Forall₂ (Job.Alike free) rest rest' := by
  have hqueue := h.queue
  unfold Takes at hq ⊢
  rw [h.order]
  split at hq
  · rw [← List.forall₂_reverse_iff, hq, List.reverse_concat] at hqueue
    obtain ⟨j', rest', hj, hrest, hq'⟩ := List.forall₂_cons_left_iff.mp hqueue
    refine ⟨j', rest'.reverse, ?_, hj, ?_⟩
    · rw [← List.reverse_cons, ← hq', List.reverse_reverse]
    · rwa [← List.forall₂_reverse_iff, List.reverse_reverse]
  · rw [hq] at hqueue
    obtain ⟨j', rest', hj, hrest, hq'⟩ := List.forall₂_cons_left_iff.mp hqueue
    exact ⟨j', rest', hq', hj, hrest⟩

theorem idle (h : s.Alike free s') (hs : s.Idle) : s'.Idle := by
  obtain ⟨ht, hr, hq⟩ := hs
  have htasks := h.tasks
  have hqueue := h.queue
  rw [ht] at htasks
  rw [hq] at hqueue
  exact ⟨List.forall₂_nil_left_iff.mp htasks, h.resolved.trans hr,
    List.forall₂_nil_left_iff.mp hqueue⟩

/-! ### The same changes -/

theorem withTasks (h : s.Alike free s') {ts ts' : List Task}
    (ht : List.Forall₂ (Task.Alike free) ts ts') :
    (s.withTasks ts).Alike free (s'.withTasks ts') :=
  { h with tasks := ht }

theorem modifySession (h : s.Alike free s') (i : SessionId) {φ ψ : Session → Session}
    (hφ : ∀ u v, u.Alike v → (φ u).Alike (ψ v)) :
    (s.modifySession i φ).Alike free (s'.modifySession i ψ) :=
  { h with sessions := Numbered.forall₂_modify hφ h.sessions i.index }

theorem retain (h : s.Alike free s') (n : Nat) (session : Option SessionId) :
    (s.retain n session).Alike free (s'.retain n session) := by
  cases session with
  | none => exact h
  | some i =>
    exact h.modifySession i fun _ _ huv =>
      ⟨huv.result, huv.waiters, congrArg (· + n) huv.outstanding, huv.exceeded⟩

theorem push (h : s.Alike free s') (session : Option SessionId) {jobs jobs' : List Job}
    (hj : List.Forall₂ (Job.Alike free) jobs jobs') :
    (s.push session jobs).Alike free (s'.push session jobs') := by
  rw [Search.push, Search.push, ← hj.length_eq]
  exact { h.retain jobs.length session with queue := List.rel_append h.queue hj }

theorem suspend (h : s.Alike free s') {r r' : Revisit}
    (hr : RevisitEntry.Alike free ⟨r, false⟩ ⟨r', false⟩) :
    (s.suspend r).Alike free (s'.suspend r') :=
  { h with revisits := List.rel_append h.revisits (.cons hr .nil) }

theorem markResumed (h : s.Alike free s') (i : RevisitId) :
    (s.markResumed i).Alike free (s'.markResumed i) :=
  { h with
    revisits := Numbered.forall₂_modify (fun _ _ he =>
      ⟨he.context, he.resume, he.precondition, he.parent, rfl⟩) h.revisits i.index }

theorem openSession (h : s.Alike free s') (hc : c.Alike free c') (f : Formula) (w : RevisitId) :
    (s.openSession (c.inquiry f) w).Alike free (s'.openSession (c'.inquiry f) w) where
  order := h.order
  queue := by
    refine List.rel_append h.queue (.cons ⟨?_, rfl, rfl⟩ .nil)
    exact hc.restart (congrArg some h.nextSession)
  visited := h.visited
  revisits := h.revisits
  keys := by rw [Search.openSession, h.keys, hc.sessionKey]; rfl
  sessions := List.rel_append h.sessions (.cons ⟨.pending, rfl, rfl, .none⟩ .nil)
  resolved := h.resolved
  tasks := h.tasks

theorem join (h : s.Alike free s') (i : SessionId) (w : RevisitId) :
    (s.join i w).Alike free (s'.join i w) :=
  h.modifySession i fun _ _ huv =>
    ⟨huv.result, congrArg (·.pushBack w) huv.waiters, huv.outstanding, huv.exceeded⟩

theorem exceed (h : s.Alike free s') (i : SessionId) {x x' : Counterexample} (hx : x.Alike x') :
    (s.exceed i x).Alike free (s'.exceed i x') :=
  h.modifySession i fun u v huv => ⟨huv.result, huv.waiters, huv.outstanding, by
    have hex := huv.exceeded
    generalize u.exceeded = y, v.exceeded = y' at hex
    cases hex with
    | none => exact .some hx
    | some hy => exact .some hy⟩

theorem release (h : s.Alike free s') (i : SessionId) :
    (s.release i).Alike free (s'.release i) :=
  h.modifySession i fun _ _ huv =>
    ⟨huv.result, huv.waiters, congrArg (· - 1) huv.outstanding, huv.exceeded⟩

theorem complete (h : s.Alike free s') (i : SessionId) {r r' : SessionResult} (hr : r.Alike r') :
    (s.complete i r).Alike free (s'.complete i r') :=
  { h.modifySession i (φ := fun u => { u with result := r }) (ψ := fun u => { u with result := r' })
      fun _ _ huv => ⟨hr, huv.waiters, huv.outstanding, huv.exceeded⟩ with
    resolved := congrArg (· ++ [i]) h.resolved }

theorem nil (h : s.Alike free s') (ht : s.tasks = []) : s'.tasks = [] := by
  have htasks := h.tasks
  rw [ht] at htasks
  exact List.forall₂_nil_left_iff.mp htasks

theorem cons (h : s.Alike free s') {k : Task} {ts : List Task} (ht : s.tasks = k :: ts) :
    ∃ k' ts', s'.tasks = k' :: ts' ∧ k.Alike free k' ∧ List.Forall₂ (Task.Alike free) ts ts' := by
  have htasks := h.tasks
  rw [ht] at htasks
  obtain ⟨k', ts', hk, hts, ht'⟩ := List.forall₂_cons_left_iff.mp htasks
  exact ⟨k', ts', ht', hk, hts⟩

/-- The same obligation, with a precondition, waits. -/
theorem park (h : s.Alike free s') (hc : c.Alike free c') (o : Obligation) (p : Precondition)
    (link : Option RevisitId) :
    (s.suspend ⟨c, o, p, link⟩).Alike free (s'.suspend ⟨c', o, p, link⟩) :=
  h.suspend ⟨hc, rfl, rfl, rfl, rfl⟩

end Search.Alike

/-! ### The same moves -/

/-- No task merges windows. -/
def Search.Unmerged (s : Search) : Prop :=
  ∀ n c link f w ts, s.tasks ≠ .execute n c link (.constrain f w) :: ts

theorem Move.alike (hm : Move g s t) (h : s.Alike free s') (hfree : free → s.Unmerged) :
    ∃ t', Move g s' t' ∧ t.Alike free t' := by
  cases hm with
  | @notify i rest u ht hr hi =>
    obtain ⟨v, hi', huv⟩ := h.session hi
    refine ⟨_, .notify (h.nil ht) (h.resolved.trans hr) hi', ?_⟩
    have hd : (s.dismiss i).Alike free (s'.dismiss i) :=
      h.modifySession i fun _ _ huv => ⟨huv.result, rfl, huv.outstanding, huv.exceeded⟩
    refine { hd with resolved := rfl, tasks := ?_ }
    rw [huv.waiters]
    exact List.forall₂_map_left_iff.mpr (List.forall₂_map_right_iff.mpr
      (List.forall₂_same.mpr fun w _ => .tell w huv.result))
  | @take j rest ht hr hq =>
    obtain ⟨j', rest', hq', hj, hrest⟩ := h.takes hq
    exact ⟨_, .take (h.nil ht) (h.resolved.trans hr) hq',
      { h with queue := hrest, tasks := .cons (.process hj) .nil }⟩
  | @stale j ts ht hs =>
    obtain ⟨_, ts', ht', ⟨hj⟩, hts⟩ := h.cons ht
    rw [← hj.context.session] at hs ⊢
    exact ⟨_, .stale ht' (h.settled hs), h.withTasks (.cons (.release _) hts)⟩
  | @repeated j ts ht ho hv =>
    obtain ⟨_, ts', ht', ⟨hj⟩, hts⟩ := h.cons ht
    rw [← hj.context.session] at ho ⊢
    rw [← hj.visitKey, ← h.visited] at hv
    exact ⟨_, .repeated ht' (h.opened ho) hv, h.withTasks (.cons (.release _) hts)⟩
  | @visit j ts node u ht ho hv hn hu =>
    obtain ⟨_, ts', ht', hk, hts⟩ := h.cons ht
    cases hk with
    | @process _ j' hj =>
      have hu' : j'.formula.unfold (j'.position node) = .ok u := by
        rw [hj.formula, hj.context.position, Formula.unfold_cost hj.context.cost]
        exact hu
      rw [← hj.context.session] at ho ⊢
      refine ⟨_, .visit ht' (h.opened ho) (by rwa [hj.visitKey, h.visited])
        (by rwa [hj.context.node]) hu', ?_⟩
      exact { h with
        visited := by rw [h.visited, hj.visitKey]
        tasks := List.rel_append (u.alike_tasks hj) (.cons (.release _) hts) }
  | @spawn n c link o ts jobs ht hj =>
    obtain ⟨_, ts', ht', hk, hts⟩ := h.cons ht
    cases hk with
    | execute _ _ _ hc =>
      obtain ⟨jobs', hj', hjobs⟩ := hc.jobs? hj fun f w ho hf => hfree hf n c link f w ts (ho ▸ ht)
      rw [← hc.session]
      exact ⟨_, .spawn ht' hj', (h.push _ hjobs).withTasks hts⟩
  | @judge n c link o p ts node judgement ht hp hn hj =>
    obtain ⟨_, ts', ht', hk, hts⟩ := h.cons ht
    cases hk with
    | @execute _ c' _ _ _ hc =>
      have hj' : p.formula.judge (c'.position node) = .ok judgement := by
        rw [hc.position, Formula.judge_cost hc.cost]
        exact hj
      exact ⟨_, .judge ht' hp (by rwa [hc.node]) hj', h.withTasks (List.rel_append
        (((Finding.alike_ofJudgement c c' judgement).react p c c').tasks hc n link o) hts)⟩
  | @require n c link o p ts ht hp hk =>
    obtain ⟨_, ts', ht', hk', hts⟩ := h.cons ht
    cases hk' with
    | execute _ _ _ hc =>
      refine ⟨_, .require ht' hp hk, ?_⟩
      rw [hc.session, h.nextRevisit]
      exact ((h.park hc o p link).push _ (.cons (hc.demand _ _) .nil)).withTasks hts
  | @inquire n c link o p ts ht hp hk hkey =>
    obtain ⟨_, ts', ht', hk', hts⟩ := h.cons ht
    cases hk' with
    | execute _ _ _ hc =>
      refine ⟨_, .inquire ht' hp hk (by rwa [hc.sessionKey, h.keys]), ?_⟩
      rw [hc.session, h.nextRevisit]
      exact (((h.park hc o p link).openSession hc p.formula _).retain 1 _).withTasks hts
  | @join n c link o p ts i ht hp hk hkey hi =>
    obtain ⟨_, ts', ht', hk', hts⟩ := h.cons ht
    cases hk' with
    | execute _ _ _ hc =>
      refine ⟨_, .join ht' hp hk (by rw [hc.sessionKey]; exact h.key hkey) (h.opened hi), ?_⟩
      rw [hc.session, h.nextRevisit]
      exact (((h.park hc o p link).join i _).retain 1 _).withTasks hts
  | @answerLate n c link o p ts i ht hp hk hkey hi hs =>
    obtain ⟨_, ts', ht', hk', hts⟩ := h.cons ht
    cases hk' with
    | execute _ _ _ hc =>
      rw [← hc.session] at hs
      exact ⟨_, .answerLate ht' hp hk (by rw [hc.sessionKey]; exact h.key hkey) (h.settled hi)
        (h.settled hs), (h.park hc o p link).withTasks hts⟩
  | @answer n c link o p ts i u finding ht hp hk hkey hi hf ho =>
    obtain ⟨_, ts', ht', hk', hts⟩ := h.cons ht
    cases hk' with
    | @execute _ c' _ _ _ hc =>
      obtain ⟨v, hi', huv⟩ := h.session hi
      obtain ⟨finding', hf', hff⟩ := huv.result.finding hf
      rw [← hc.session] at ho
      exact ⟨_, .answer ht' hp hk (by rw [hc.sessionKey]; exact h.key hkey) hi' hf' (h.opened ho),
        (h.park hc o p link).withTasks
          (List.rel_append ((hff.react p c c').tasks hc n link o) hts)⟩
  | @resumeNone n c ts ht =>
    obtain ⟨_, ts', ht', ⟨⟩, hts⟩ := h.cons ht
    exact ⟨_, .resumeNone ht', h.withTasks hts⟩
  | @resumeAgain n c i ts e ht hi hr =>
    obtain ⟨_, ts', ht', ⟨⟩, hts⟩ := h.cons ht
    obtain ⟨e', hi', he⟩ := h.record hi
    exact ⟨_, .resumeAgain ht' hi' (he.resumed.trans hr), h.withTasks hts⟩
  | @resumeLate n c i ts e ht hi hr hs =>
    obtain ⟨_, ts', ht', ⟨⟩, hts⟩ := h.cons ht
    obtain ⟨e', hi', he⟩ := h.record hi
    rw [← he.context.session] at hs
    exact ⟨_, .resumeLate ht' hi' (he.resumed.trans hr) (h.settled hs),
      (h.markResumed i).withTasks hts⟩
  | @resume n c i ts e ht hi hr ho =>
    obtain ⟨_, ts', ht', ⟨⟩, hts⟩ := h.cons ht
    obtain ⟨e', hi', he⟩ := h.record hi
    rw [← he.context.session] at ho
    refine ⟨_, .resume ht' hi' (he.resumed.trans hr) (h.opened ho), ?_⟩
    rw [he.parent, he.resume]
    exact (h.markResumed i).withTasks (.cons (.execute _ _ _ he.context) hts)
  | @tellLate result i ts e ht hi hs =>
    obtain ⟨_, ts', ht', hk, hts⟩ := h.cons ht
    cases hk with
    | tell _ hr =>
      obtain ⟨e', hi', he⟩ := h.record hi
      rw [← he.context.session] at hs ⊢
      exact ⟨_, .tellLate ht' hi' (hs.imp hr.pending_iff.mpr h.settled),
        h.withTasks (.cons (.release _) hts)⟩
  | @tell result i ts e finding ht hi hf ho =>
    obtain ⟨_, ts', ht', hk, hts⟩ := h.cons ht
    cases hk with
    | tell _ hr =>
      obtain ⟨e', hi', he⟩ := h.record hi
      obtain ⟨finding', hf', hff⟩ := hr.finding hf
      rw [← he.context.session] at ho ⊢
      refine ⟨_, .tell ht' hi' hf' (h.opened ho), ?_⟩
      rw [he.parent, he.resume, he.precondition]
      exact h.withTasks (List.rel_append ((hff.react _ _ _).tasks he.context _ _ _)
        (.cons (.release _) hts))
  | @exceed i x ts ht hx =>
    obtain ⟨_, ts', ht', hk, hts⟩ := h.cons ht
    cases hk with
    | fail _ hxx =>
      exact ⟨_, .exceed ht' (Eq.trans hxx hx), (h.exceed i hxx).withTasks hts⟩
  | @decide i x ts ht hx hi =>
    obtain ⟨_, ts', ht', hk, hts⟩ := h.cons ht
    cases hk with
    | fail _ hxx =>
      exact ⟨_, .decide ht' (Eq.trans hxx hx) (h.opened hi), (h.complete i (.fail hxx)).withTasks hts⟩
  | @decideLate i x ts ht hx hi =>
    obtain ⟨_, ts', ht', hk, hts⟩ := h.cons ht
    cases hk with
    | fail _ hxx =>
      exact ⟨_, .decideLate ht' (Eq.trans hxx hx) (h.settled hi), h.withTasks hts⟩
  | @releaseNone ts ht =>
    obtain ⟨_, ts', ht', ⟨⟩, hts⟩ := h.cons ht
    exact ⟨_, .releaseNone ht', h.withTasks hts⟩
  | @release i ts u ht hi hn hl =>
    obtain ⟨_, ts', ht', ⟨⟩, hts⟩ := h.cons ht
    obtain ⟨v, hi', huv⟩ := h.session hi
    rw [← huv.outstanding] at hn hl
    exact ⟨_, .release ht' hi' hn (hl.imp_right (mt huv.result.pending_iff.mp)),
      (h.release i).withTasks hts⟩
  | @finish i ts u ht hi hn hr =>
    obtain ⟨_, ts', ht', ⟨⟩, hts⟩ := h.cons ht
    obtain ⟨v, hi', huv⟩ := h.session hi
    exact ⟨_, .finish ht' hi' (huv.outstanding.trans hn) (huv.result.pending_iff.mpr hr),
      ((h.release i).complete i huv.outcome).withTasks hts⟩

theorem Moves.alike (hm : Moves g s t) (h : s.Alike free s')
    (hfree : free → ∀ u, Moves g s u → u.Unmerged) : ∃ t', Moves g s' t' ∧ t.Alike free t' := by
  induction hm generalizing s' with
  | refl s => exact ⟨s', .refl s', h⟩
  | @step s u t first rest ih =>
    obtain ⟨u', hu', hu⟩ := first.alike h fun hf => hfree hf s (.refl s)
    obtain ⟨t', ht', ht⟩ := ih hu fun hf v hv => hfree hf v (.step first hv)
    exact ⟨t', .step hu' ht', ht⟩

end CostCTL
