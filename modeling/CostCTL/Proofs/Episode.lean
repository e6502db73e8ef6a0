import CostCTL.Proofs.Phase
import CostCTL.Proofs.Stretch

/-!
# Episodes of a search with windows

With windows a visit tells little of the formula, but it still leads to its link: work for a session
resumes the revisit it is linked to, unless the session is spoilt, by a failure or by a branch that
left its window (`Search.Discharged`). An episode is a part of the search, depth first, that does so
for all that came up in it (`Search.Episode`), and a search is `Primed` for one if the revisits that
wait for what they require were suspended one inside the other.

A job that was visited before is dropped and resumes nothing. The visit that it is dropped for has
been discharged, because those that are not lie on the way to the job, with no more spent, and to
come there again is to close a cycle (`Search.Unbarred`).
-/

namespace CostCTL

open Formula

variable {g : Kripke} {s t u : Search} {session : Option SessionId} {link : Option RevisitId}
  {order : PendingOrder} {fs : List Formula} {past : Search}

/-! ### Spoilt sessions -/

namespace Search

/-- A branch of the session left its window. -/
def Overruns (s : Search) (session : Option SessionId) : Prop :=
  ∃ i v, session = some i ∧ s.session? i = some v ∧ v.exceeded ≠ none

/-- The session cannot pass any more. -/
def Spoilt (s : Search) (session : Option SessionId) : Prop := s.Failed session ∨ s.Overruns session

theorem not_spoilt_none : ¬ s.Spoilt none := by
  rintro (⟨x, hx⟩ | ⟨i, v, hi, -⟩)
  · cases hx
  · cases hi

theorem Overruns.modifySession {m : SessionId} {φ : Session → Session}
    (hφ : ∀ v, v.exceeded ≠ none → (φ v).exceeded ≠ none) (h : s.Overruns session) :
    (s.modifySession m φ).Overruns session := by
  obtain ⟨i, v, rfl, hi, hx⟩ := h
  by_cases him : i = m
  · exact ⟨i, φ v, rfl, by rw [session?_modifySession, if_pos him, hi]; rfl, hφ v hx⟩
  · exact ⟨i, v, rfl, by rw [session?_modifySession, if_neg him, hi], hx⟩

theorem Overruns.retain (n : Nat) (k : Option SessionId) (h : s.Overruns session) :
    (s.retain n k).Overruns session := by
  cases k with
  | none => exact h
  | some m => exact h.modifySession fun _ hx => hx

theorem Overruns.openSession (root : Job) (w : RevisitId) (h : s.Overruns session) :
    (s.openSession root w).Overruns session := by
  obtain ⟨i, v, rfl, hi, hx⟩ := h
  exact ⟨i, v, rfl, session?_openSession hi root w, hx⟩

end Search

open Search in
theorem Move.overruns (h : Move g s t) (hx : s.Overruns session) : t.Overruns session := by
  have keep {φ : Session → Session} (m : SessionId) (hφ : ∀ v, (φ v).exceeded = v.exceeded) :
      (s.modifySession m φ).Overruns session := hx.modifySession fun v hv => by rwa [hφ]
  cases h with
  | notify => exact keep (φ := fun v => { v with waiters := .empty }) _ fun _ => rfl
  | spawn => exact hx.retain _ _
  | require => exact Overruns.retain (s := s.suspend _) _ _ hx
  | inquire => exact Overruns.retain _ _ (Overruns.openSession (s := s.suspend _) _ _ hx)
  | join =>
    exact Overruns.retain _ _ (Overruns.modifySession (s := s.suspend _) (fun _ hv => hv) hx)
  | exceed =>
    refine Overruns.modifySession (s := s) (fun v hv => ?_) hx
    cases hv' : v.exceeded with
    | none => exact absurd hv' hv
    | some => simp
  | decide => exact keep (φ := fun v => { v with result := _ }) _ fun _ => rfl
  | release => exact keep (φ := fun v => { v with outstanding := _ }) _ fun _ => rfl
  | finish =>
    exact Overruns.modifySession (s := s.release _) (φ := fun v => { v with result := _ })
      (fun _ hv => hv) (keep (φ := fun v => { v with outstanding := _ }) _ fun _ => rfl)
  | take | stale | repeated | visit | judge | answerLate | answer | resumeNone | resumeAgain
    | resumeLate | resume | tellLate | tell | decideLate | releaseNone => exact hx

namespace Search

theorem Spoilt.moves (h : s.Spoilt session) (hm : Moves g s t) : t.Spoilt session := by
  refine h.imp (·.extends hm.extends) fun hx => ?_
  induction hm with
  | refl => exact hx
  | step first _ ih => exact ih (.inr (first.overruns hx)) (first.overruns hx)

/-! ### What is discharged -/

/-- Work for the session resumed the link, unless the session is spoilt. -/
def Discharged (s : Search) (session : Option SessionId) (link : Option RevisitId) : Prop :=
  s.Spoilt session ∨ s.Resumed link

theorem Discharged.moves (h : s.Discharged session link) (hm : Moves g s t) :
    t.Discharged session link := h.imp (·.moves hm) (·.extends hm.extends)

theorem discharged_none : s.Discharged session none := .inr fun _ hi => by cases hi

/-- The revisit waits for what it requires, and its session may still pass. -/
structure Live (s : Search) (i : RevisitId) (r : Revisit) : Prop where
  record : s.record? i = some ⟨r, false⟩
  kind : r.precondition.kind = .required
  sound : ¬ s.Spoilt r.session

theorem Live.of_moves {i : RevisitId} {r : Revisit} (h : t.Live i r) (hm : Moves g s t)
    (hrec : t.record? i = some ⟨r, false⟩ → s.record? i = some ⟨r, false⟩) : s.Live i r :=
  ⟨hrec h.record, h.kind, fun hs => h.sound (hs.moves hm)⟩

theorem Live.not_discharged {i : RevisitId} {r : Revisit} (h : s.Live i r) :
    ¬ s.Discharged r.session (some i) := by
  rintro (hs | hr)
  · exact h.sound hs
  · obtain ⟨e, he, htrue⟩ := hr i rfl
    cases h.record.symm.trans he
    cases htrue

theorem unresumed_markResumed {i i' : RevisitId} {r : Revisit} :
    (s.markResumed i).record? i' = some ⟨r, false⟩ ↔ s.record? i' = some ⟨r, false⟩ ∧ i' ≠ i := by
  rw [record?_markResumed]
  split <;> simp [*]

/-- Work was done for the session. Of what came up meanwhile, all visits and all revisits are
discharged and all sessions have their results. -/
structure Episode (g : Kripke) (session : Option SessionId) (s t : Search) : Prop where
  moves : Moves g s t
  visited : ∀ k ∈ t.visited, k ∈ s.visited ∨ t.Discharged k.session k.link
  live : ∀ i r, t.Live i r → s.Live i r
  resumed : ∀ i r, s.record? i = some ⟨r, false⟩ → r.precondition.kind = .required →
    t.Resumed (some i) → t.Discharged r.session r.parent
  opened : ∀ k, t.Open k → s.Open k
  kept : ∀ k, k ≠ session → s.Open k → t.Open k
  waiters : ∀ i v, s.session? i = some v → ∃ v', t.session? i = some v' ∧ v'.waiters = v.waiters

namespace Episode

theorem trans (h : s.Episode g session t) (h' : t.Episode g session u) : s.Episode g session u where
  moves := h.moves.trans h'.moves
  visited k hk := by
    rcases h'.visited k hk with hk | hk
    · exact (h.visited k hk).imp_right (·.moves h'.moves)
    · exact .inr hk
  live i r hr := h.live i r (h'.live i r hr)
  resumed i r hi hk hr := by
    obtain ⟨b, hb, -⟩ := h.moves.extends.entry i _ hi
    cases b with
    | false => exact h'.resumed i r hb hk hr
    | true =>
      have ht : t.Resumed (some i) := fun m hm => ⟨_, Option.some.inj hm ▸ hb, rfl⟩
      exact (h.resumed i r hi hk ht).moves h'.moves
  opened k hk := h.opened k (h'.opened k hk)
  kept k hne hk := h'.kept k hne (h.kept k hne hk)
  waiters i v hi := by
    obtain ⟨v', hi', hv'⟩ := h.waiters i v hi
    obtain ⟨v'', hi'', hv''⟩ := h'.waiters i v' hi'
    exact ⟨v'', hi'', hv''.trans hv'⟩

/-- Nothing comes up, and at most the session itself gets a result. -/
theorem of_eq (hm : Moves g s t) (hv : t.visited = s.visited)
    (hrec : ∀ i r, r.precondition.kind = .required →
      (t.record? i = some ⟨r, false⟩ ↔ s.record? i = some ⟨r, false⟩))
    (hres : ∀ k, k ≠ session → t.result? k = s.result? k) (ho : t.Open session → s.Open session)
    (hw : ∀ i v, s.session? i = some v → ∃ v', t.session? i = some v' ∧ v'.waiters = v.waiters) :
    s.Episode g session t := by
  refine ⟨hm, fun k hk => .inl (hv ▸ hk), fun i r h => h.of_moves hm (hrec i r h.kind).mp,
    fun i r hi hk hr => ?_, fun k hk => ?_, fun k hne hk => (hres k hne).trans hk, hw⟩
  · obtain ⟨e, he, htrue⟩ := hr i rfl
    cases ((hrec i r hk).mpr hi).symm.trans he
    cases htrue
  · by_cases hks : k = session
    · exact hks ▸ ho (hks ▸ hk)
    · exact (hres k hks).symm.trans hk

/-- Only worklist and tasks change. -/
theorem quiet (hm : Moves g s t) (hv : t.visited = s.visited) (hr : t.revisits = s.revisits)
    (hs : t.sessions = s.sessions) : s.Episode g session t := by
  have hsession (i : SessionId) : t.session? i = s.session? i := by rw [session?, hs, session?]
  have hresult (k : Option SessionId) : t.result? k = s.result? k := by
    cases k with
    | none => rfl
    | some i => rw [result?, hsession, result?]
  refine .of_eq hm hv (fun i r _ => by rw [record?, hr, record?]) (fun k _ => hresult k)
    (fun ho => (hresult session).symm.trans ho) fun i v hi => ⟨v, (hsession i).trans hi, rfl⟩

theorem refl (s : Search) : s.Episode g session s := .quiet (.refl s) rfl rfl rfl

/-- Moves before an episode belong to it, if what they begin is discharged in its course. -/
theorem prepend (hm : Moves g s t) (h : t.Episode g session u)
    (hv : ∀ k ∈ t.visited, k ∈ s.visited ∨ u.Discharged k.session k.link)
    (hl : ∀ i r, u.Live i r → t.record? i = some ⟨r, false⟩ → s.record? i = some ⟨r, false⟩)
    (hr : ∀ i r, s.record? i = some ⟨r, false⟩ →
      t.record? i = some ⟨r, false⟩ ∨ u.Discharged r.session r.parent)
    (hres : ∀ k, t.result? k = s.result? k)
    (hw : ∀ i v, s.session? i = some v → ∃ v', t.session? i = some v' ∧ v'.waiters = v.waiters) :
    s.Episode g session u where
  moves := hm.trans h.moves
  visited k hk := by
    rcases h.visited k hk with hk | hk
    · exact hv k hk
    · exact .inr hk
  live i r hi := (h.live i r hi).of_moves hm (hl i r hi)
  resumed i r hi hk hres := by
    rcases hr i r hi with hi | hi
    · exact h.resumed i r hi hk hres
    · exact hi
  opened k hk := (hres k).symm.trans (h.opened k hk)
  kept k hne hk := h.kept k hne ((hres k).trans hk)
  waiters i v hi := by
    obtain ⟨v', hi', hv'⟩ := hw i v hi
    obtain ⟨v'', hi'', hv''⟩ := h.waiters i v' hi'
    exact ⟨v'', hi'', hv''.trans hv'⟩

theorem push {k : Option SessionId} {jobs : List Job} {ts : List Task}
    (hm : Move g s ((s.push k jobs).withTasks ts)) :
    s.Episode g session ((s.push k jobs).withTasks ts) := by
  have hres (i : Option SessionId) := s.result?_push k jobs i
  refine .of_eq (.single hm) (visited_retain _ _ _) (fun i r _ => ?_) (fun i _ => hres i)
    (fun ho => (hres session).symm.trans ho) fun i v hi => waiters_retain _ _ hi
  rw [record?, show ((s.push k jobs).withTasks ts).revisits = s.revisits from revisits_retain _ _ _,
    record?]

/-- A revisit that waits for a session does not require what it waits for. -/
theorem suspend {r : Revisit} {ts : List Task} (hr : r.precondition.kind ≠ .required)
    (hm : Move g s ((s.suspend r).withTasks ts)) :
    s.Episode g session ((s.suspend r).withTasks ts) := by
  refine .of_eq (.single hm) rfl (fun i r' hr' => ?_) (fun _ _ => rfl) id fun i v hi => ⟨v, hi, rfl⟩
  refine (record?_suspend (s := s) (r := r)).trans (or_iff_left ?_)
  rintro ⟨-, he⟩
  cases he
  exact hr hr'

end Episode

end Search

/-! ### Nothing on the way -/

/-- The node was left at this cost, or a larger one. -/
def History.Covers (h : History) (i : NodeId) (x : Cost) : Prop :=
  ∃ seen, h.get? i = some seen ∧ x ≤ seen

/-- The costs of the history were spent on the way here. -/
def Context.Climbs (c : Context) : Prop := ∀ i seen, c.history.get? i = some seen → seen ≤ c.cost

/-- The path formula came through the node, at this cost or a larger one. -/
def Obligation.Covers (c : Context) : Obligation → NodeId → Cost → Prop
  | .successors _ => History.Covers c.leave
  | .revisit o _ => o.Covers c
  | .here _ | .step _ | .constrain .. => fun _ _ => False

namespace Context

variable {c : Context}

theorem climbs_of_history_eq (h : c.history = ∅) : c.Climbs := by
  intro i seen hi
  rw [h] at hi
  cases hi

theorem Climbs.follow (h : c.Climbs) (e : Edge) : (c.follow c.leave e).Climbs := by
  intro i seen hi
  have hi : c.leave.get? i = some seen := hi
  rw [leave, SortedMap.get?_insert] at hi
  split at hi
  · exact Option.some.inj hi ▸ Cost.le_add _ _
  · exact Cost.le_trans (h i seen hi) (Cost.le_add _ _)

theorem relevantCost_le (c : Context) : c.relevantCost ≤ c.cost := by
  rw [relevantCost]
  split
  · exact Cost.zero_le _
  · exact Cost.le_refl _

theorem Climbs.covers_leave (h : c.Climbs) {i : NodeId} {x : Cost}
    (hx : History.Covers c.history i x) : History.Covers c.leave i x := by
  obtain ⟨seen, hi, hle⟩ := hx
  rw [History.Covers, leave, SortedMap.get?_insert]
  split
  · exact ⟨c.cost, rfl, Cost.le_trans hle (h i seen hi)⟩
  · exact ⟨seen, hi, hle⟩

theorem covers_leave_self (c : Context) : History.Covers c.leave c.node c.relevantCost :=
  ⟨c.cost, by simp [leave], c.relevantCost_le⟩

/-- To come where the path formula was before, without having spent less, is to close a cycle. -/
theorem Climbs.inCycle (h : c.Climbs) (hc : History.Covers c.history c.node c.relevantCost) :
    c.inCycle = true := by
  obtain ⟨seen, hi, hle⟩ := hc
  rw [Context.inCycle, closesCycle, hi]
  rw [relevantCost] at hle
  split at hle
  · next hw => simp [Window.isAhead_of_satisfied (Window.verdict_of_isEmpty hw)]
  · simp [Cost.le_antisymm (h c.node seen hi) hle]

end Context

/-- A formula that goes on leads to itself, another to smaller ones. -/
theorem Formula.covers_of_unfoldTemporal {f : Formula} {p : Position} {o : Obligation}
    (hu : f.isUniversal = true) (h : f.unfoldTemporal p = .obligation o) :
    (p.inCycle = false ∧ o.target = f ∧ ∀ c, o.Covers c = History.Covers c.leave) ∨
    (o.target.size < f.size ∧ ∀ c i x, ¬ o.Covers c i x) := by
  have hproceed {looped : Unfolding} {inside : Obligation} (hl : looped ≠ .obligation o)
      (hi : inside.target = f ∧ ∀ c, inside.Covers c = History.Covers c.leave)
      (h : proceed p f looped inside = .obligation o) :
      p.inCycle = false ∧ o.target = f ∧ ∀ c, o.Covers c = History.Covers c.leave := by
    unfold proceed at h
    split at h
    · exact absurd h hl
    · next hc =>
      refine ⟨by simpa using hc, ?_⟩
      split at h
      · cases h
        exact ⟨rfl, fun _ => rfl⟩
      · cases h
        exact hi
  have hsmall {e : Formula} (he : e ∈ f.operands) : e.size < f.size := size_lt_of_mem_operands he
  cases f with
  | atom => cases h
  | not e =>
    cases h
    refine .inr ⟨?_, fun _ _ _ => id⟩
    have := e.size_pos
    simp only [Obligation.target, falsum, size]
    omega
  | and l r | or l r | implies l r =>
    cases h
    exact .inr ⟨hsmall (e := r) (by simp [operands]), fun _ _ _ => id⟩
  | next q e =>
    cases q with
    | all =>
      cases h
      exact .inr ⟨hsmall (e := e) (by simp [operands]), fun _ _ _ => id⟩
    | some => cases hu
  | always q e | eventually q e | strongUntil q l r | weakUntil q l r =>
    cases q with
    | all => exact .inl (hproceed (by simp) ⟨rfl, fun _ => rfl⟩ h)
    | some => cases hu
  | within e w =>
    cases h
    refine .inr ⟨?_, fun _ _ _ => id⟩
    simp only [Obligation.target, size]
    omega

namespace Search

/-- The visits with the link and the context's session are discharged, but for those on the way to
`f`. -/
def Unbarred (s : Search) (c : Context) (link : Option RevisitId) (f : Formula)
    (covers : NodeId → Cost → Prop) : Prop :=
  s.Discharged c.session link ∨ (c.Climbs ∧ ∀ k ∈ s.visited, k.session = c.session → k.link = link →
    f.size < k.formula.size ∨ (k.formula = f ∧ k.inCycle = false ∧ covers k.node k.cost))

/-- Nothing is in the way of the job. -/
def ClearFor (s : Search) (j : Job) : Prop :=
  s.Unbarred j.toContext j.link j.formula (History.Covers j.history)

/-- Nothing is in the way of the obligation. -/
def ClearOf (s : Search) (c : Context) (link : Option RevisitId) (o : Obligation) : Prop :=
  s.Unbarred c link o.target (o.Covers c)

variable {c : Context} {f : Formula} {covers : NodeId → Cost → Prop} {o : Obligation}

/-- Later visits are discharged. -/
theorem Unbarred.mono (h : s.Unbarred c link f covers) (hm : Moves g s t)
    (hv : ∀ k ∈ t.visited, k.session = c.session → k.link = link →
      k ∈ s.visited ∨ t.Discharged k.session k.link) : t.Unbarred c link f covers := by
  by_cases hd : t.Discharged c.session link
  · exact .inl hd
  obtain ⟨hclimbs, hall⟩ := h.resolve_left fun hd' => hd (hd'.moves hm)
  refine .inr ⟨hclimbs, fun k hk hs hl => ?_⟩
  rcases hv k hk hs hl with hk | hk
  · exact hall k hk hs hl
  · rw [hs, hl] at hk
    exact absurd hk hd

theorem Unbarred.episode (h : s.Unbarred c link f covers) (he : s.Episode g session t) :
    t.Unbarred c link f covers := h.mono he.moves fun k hk _ _ => he.visited k hk

/-- What was visited before is discharged, for it does not lie on the way. -/
theorem ClearFor.discharged {j : Job} (h : s.ClearFor j) (hj : j.visitKey ∈ s.visited) :
    s.Discharged j.session j.link := by
  refine h.elim id fun ⟨hclimbs, hall⟩ => ?_
  rcases hall _ hj rfl rfl with hlt | ⟨-, hcycle, hcovers⟩
  · exact absurd hlt (Nat.lt_irrefl _)
  · have hcycle : j.inCycle = false := hcycle
    rw [hclimbs.inCycle hcovers] at hcycle
    cases hcycle

/-- A visit is on the way to what it leaves to do. -/
theorem ClearFor.visit {j : Job} {node : Node} (hf : j.formula.isUniversal = true)
    (hu : j.formula.unfold (j.position node) = .ok (.obligation o)) (h : s.ClearFor j)
    (hm : Move g s t) (hv : t.visited = s.visited ++ [j.visitKey]) :
    t.ClearOf j.toContext j.link o := by
  refine h.imp (·.moves (.single hm)) fun ⟨hclimbs, hall⟩ => ⟨hclimbs, fun k hk hs hl => ?_⟩
  rw [hv, List.mem_append, List.mem_singleton] at hk
  rcases covers_of_unfoldTemporal hf (unfoldTemporal_of_unfold hu).2 with
    ⟨hcycle, htarget, hcovers⟩ | ⟨hsize, -⟩
  · rw [htarget, hcovers]
    rcases hk with hk | rfl
    · exact (hall k hk hs hl).imp_right (And.imp_right (And.imp_right hclimbs.covers_leave))
    · exact .inr ⟨rfl, hcycle, j.toContext.covers_leave_self⟩
  · refine .inl ?_
    rcases hk with hk | rfl
    · rcases hall k hk hs hl with hlt | ⟨heq, -⟩
      · exact Nat.lt_trans hsize hlt
      · exact heq ▸ hsize
    · exact hsize

theorem Unbarred.context {c' : Context} {covers' : NodeId → Cost → Prop}
    (h : s.Unbarred c link f covers) (hs : c'.session = c.session) (hc : c.Climbs → c'.Climbs)
    (hcov : ∀ i x, covers i x → covers' i x) : s.Unbarred c' link f covers' := by
  rw [Unbarred, hs]
  exact h.imp_right fun ⟨hclimbs, hall⟩ => ⟨hc hclimbs, fun k hk hks hl =>
    (hall k hk hks hl).imp_right (And.imp_right (And.imp_right (hcov _ _)))⟩

theorem ClearOf.spawn {jobs : List Job} (h : s.ClearOf c link o)
    (hj : o.jobs? g c link = some jobs) : ∀ j ∈ jobs, s.ClearFor j := by
  cases o with
  | here e =>
    cases hj
    exact List.forall_mem_singleton.mpr (h.context rfl id fun _ _ => False.elim)
  | successors e =>
    cases hj
    intro j hj
    obtain ⟨d, -, rfl⟩ := List.mem_map.mp hj
    exact h.context rfl (·.follow d) fun _ _ => id
  | step e =>
    cases hj
    intro j hj
    obtain ⟨d, -, rfl⟩ := List.mem_map.mp hj
    exact h.context rfl (fun _ => Context.climbs_of_history_eq rfl) fun _ _ => False.elim
  | constrain e w =>
    rw [Obligation.jobs?] at hj
    split at hj
    · cases hj
      exact List.forall_mem_singleton.mpr (h.context rfl id fun _ _ => False.elim)
    · cases hj
  | revisit => cases hj

/-! ### Ready for an episode -/

/-- Work for the session, with the link, can start. No other search of a session is below it, and
the live revisits were suspended on the way, one inside the other. -/
structure Primed (g : Kripke) (fs : List Formula) (session : Option SessionId)
    (link : Option RevisitId) (s : Search) : Prop where
  course : ∃ past, Course g .depthFirst fs past s
  resolved : s.resolved = []
  opened : s.Open session
  least : ∀ i k root, s.Open (some i) → s.key? i = some k →
    s.scope? (current fs) session = some root → root.1.size ≤ k.formula.size
  clear : ∀ i r, s.Live i r → s.ClearOf r.toContext r.parent r.resume
  chain : ∀ i r, s.Live i r → r.session = session → i.index ≤ chainBound link
  nested : ∀ i r i' r', s.Live i r → s.Live i' r' → r.session = r'.session →
    i.index < i'.index → i.index ≤ chainBound r'.parent

namespace Primed

theorem valid (h : s.Primed g fs session link) : s.Valid g := by
  obtain ⟨past, hc⟩ := h.course
  exact hc.valid_accounts.1

/-- After an episode the next one can start. -/
theorem episode (h : s.Primed g fs session link) (hs : s.Episode g session t)
    (ho : t.Open session) (hr : t.resolved = []) : t.Primed g fs session link where
  course := h.course.imp fun _ hc => hc.moves hs.moves
  resolved := hr
  opened := ho
  least i k root hi hk hroot := by
    have hi' := hs.opened _ hi
    obtain ⟨k', hk'⟩ := h.valid.key?_of_result? (i := i) (by rw [hi']; simp)
    obtain rfl := Option.some.inj (hk.symm.trans (hs.moves.extends.key i k' hk'))
    obtain ⟨root', hroot'⟩ : ∃ root', s.scope? (current fs) session = some root' := by
      cases session with
      | none => exact ⟨_, rfl⟩
      | some m =>
        obtain ⟨k', hk'⟩ := h.valid.key?_of_result? (i := m) (by rw [h.opened]; simp)
        exact ⟨_, by rw [scope?, hk']; rfl⟩
    obtain rfl := Option.some.inj (hroot.symm.trans (hs.moves.extends.scope? hroot'))
    exact h.least i k root hi' hk' hroot'
  clear i r hr := (h.clear i r (hs.live i r hr)).episode hs
  chain i r hr := h.chain i r (hs.live i r hr)
  nested i r i' r' hr hr' := h.nested i r i' r' (hs.live i r hr) (hs.live i' r' hr')

/-- Moves that change no result lead on, if the live revisits are still found so. -/
theorem advance {link' : Option RevisitId} (h : s.Primed g fs session link) (hm : Moves g s t)
    (hr : t.resolved = []) (hk : t.keys = s.keys) (hres : ∀ k, t.result? k = s.result? k)
    (hclear : ∀ i r, t.Live i r → t.ClearOf r.toContext r.parent r.resume)
    (hchain : ∀ i r, t.Live i r → r.session = session → i.index ≤ chainBound link')
    (hnested : ∀ i r i' r', t.Live i r → t.Live i' r' → r.session = r'.session →
      i.index < i'.index → i.index ≤ chainBound r'.parent) :
    t.Primed g fs session link' := by
  have hkey (i : SessionId) : t.key? i = s.key? i := by rw [key?, hk, key?]
  refine ⟨h.course.imp fun _ hc => hc.moves hm, hr, (hres _).trans h.opened,
    fun i k root hi hk hroot => ?_, hclear, hchain, hnested⟩
  have hscope : t.scope? (current fs) session = s.scope? (current fs) session := by
    cases session with
    | none => rfl
    | some m => rw [scope?, hkey, scope?]
  exact h.least i k root ((hres _).symm.trans hi) ((hkey i).symm.trans hk) (hscope.symm.trans hroot)

theorem chainBound_parent_lt (h : s.Primed g fs session link) {i : RevisitId} {r : Revisit}
    (hi : s.Live i r) : chainBound r.parent < i.index := by
  cases hp : r.parent with
  | none => exact Numbered.pos_of_get? hi.record
  | some p => exact (h.valid.revisits i _ hi.record).2 p hp

/-- When no task is left, the session has a job on the worklist, being on the smallest formula. -/
theorem exists_job {i : SessionId} (h : s.Primed g fs (some i) link) (ht : s.tasks = []) :
    ∃ j ∈ s.queue, j.session = some i := by
  obtain ⟨past, hc⟩ := h.course
  obtain ⟨hv, ha⟩ := hc.valid_accounts
  obtain ⟨k, hk⟩ := hv.key?_of_result? (i := i) (by rw [h.opened]; simp)
  refine hc.inScope.exists_job_of_open hv ha ht h.resolved h.opened hk fun m k' hm hk' => ?_
  exact h.least m k' _ hm hk' (by rw [scope?, hk]; rfl)

/-- The visit of a job is none of those that live revisits will find. -/
theorem visit {j : Job} {ts : List Task} (h : s.Primed g fs j.session j.link)
    (hm : Move g s { s with visited := s.visited ++ [j.visitKey], tasks := ts }) :
    Primed g fs j.session j.link
      { s with visited := s.visited ++ [j.visitKey], tasks := ts } := by
  have hlive (i : RevisitId) (r : Revisit)
      (hi : Live { s with visited := s.visited ++ [j.visitKey], tasks := ts } i r) : s.Live i r :=
    hi.of_moves (.single hm) id
  refine h.advance (.single hm) h.resolved rfl (fun _ => rfl) (fun i r hi => ?_)
    (fun i r hi => h.chain i r (hlive i r hi))
    fun i r i' r' hi hi' => h.nested i r i' r' (hlive i r hi) (hlive i' r' hi')
  refine (h.clear i r (hlive i r hi)).mono (.single hm) fun k hk hs hl => ?_
  rcases List.mem_append.mp hk with hk | hk
  · exact .inl hk
  · obtain rfl := List.mem_singleton.mp hk
    have hlink : j.link = r.parent := hl
    have hle := h.chain i r (hlive i r hi) hs.symm
    have hlt := h.chainBound_parent_lt (hlive i r hi)
    rw [hlink] at hle
    omega

/-- A revisit that is resumed leaves the others as they are. -/
theorem resume {i : RevisitId} {r : Revisit} {ts : List Task} (h : s.Primed g fs session (some i))
    (hi : s.record? i = some ⟨r, false⟩) (hk : r.precondition.kind = .required)
    (hs : r.session = session) (hm : Move g s ((s.markResumed i).withTasks ts)) :
    ((s.markResumed i).withTasks ts).Primed g fs session r.parent := by
  have hlive {i' : RevisitId} {r' : Revisit} (h' : ((s.markResumed i).withTasks ts).Live i' r') :
      s.Live i' r' ∧ i' ≠ i :=
    ⟨h'.of_moves (.single hm) fun hr => (unresumed_markResumed.mp hr).1,
      (unresumed_markResumed.mp h'.record).2⟩
  refine h.advance (.single hm) h.resolved rfl (fun _ => rfl) (fun i' r' h' => ?_)
    (fun i' r' h' hs' => ?_) fun i₁ r₁ i₂ r₂ h₁ h₂ =>
      h.nested i₁ r₁ i₂ r₂ (hlive h₁).1 (hlive h₂).1
  · exact (h.clear i' r' (hlive h').1).mono (.single hm) fun k hk _ _ => .inl hk
  · obtain ⟨hl, hne⟩ := hlive h'
    -- the other one is live for the same session, so this one was, too
    have hi : s.Live i r := ⟨hi, hk, fun hsp => hl.sound (hs'.trans hs.symm ▸ hsp)⟩
    refine h.nested i' r' i r hl hi (hs'.trans hs.symm) (lt_of_le_of_ne (h.chain i' r' hl hs') ?_)
    cases i
    cases i'
    simpa using hne

end Primed

section Revisits

variable {p : Precondition} {ts : List Task}

/-! ### A requirement inside -/

theorem record?_required {i : RevisitId} {r : Revisit} :
    (s.required c link o p ts).record? i = some ⟨r, false⟩ ↔
      s.record? i = some ⟨r, false⟩ ∨ (i = s.nextRevisit ∧ r = ⟨c, o, p, link⟩) := by
  rw [record?, show (s.required c link o p ts).revisits = _ from revisits_retain _ _ _]
  refine (record?_suspend (s := s)).trans (or_congr_right (and_congr_right fun _ => ?_))
  simp

/-- Work that is linked to the new revisit goes inside the live revisits. -/
theorem Primed.require (h : s.Primed g fs c.session link)
    (hcl : s.ClearOf c link (.revisit o p))
    (hm : Move g s (s.required c link o p ts)) :
    (s.required c link o p ts).Primed g fs c.session (some s.nextRevisit) := by
  have hlt {i : RevisitId} {r : Revisit} (hi : s.Live i r) : i.index < s.nextRevisit.index :=
    Nat.lt_succ_of_le (Numbered.le_of_get? hi.record)
  have hlive {i : RevisitId} {r : Revisit} (hi : (s.required c link o p ts).Live i r) :
      s.Live i r ∨ (i = s.nextRevisit ∧ r = ⟨c, o, p, link⟩) :=
    (record?_required.mp hi.record).imp_left fun hr => hi.of_moves (.single hm) fun _ => hr
  refine h.advance (.single hm) ((resolved_retain _ _ _).trans h.resolved) keys_required
    result?_required (fun i r hi => ?_) (fun i r hi _ => ?_) fun i r i' r' hi hi' hs hii => ?_
  · rcases hlive hi with hi | ⟨-, rfl⟩
    · exact (h.clear i r hi).mono (.single hm) fun k hk _ _ => .inl (visited_required ▸ hk)
    · exact Unbarred.mono hcl (.single hm) fun k hk _ _ => .inl (visited_required ▸ hk)
  · rcases hlive hi with hi | ⟨rfl, -⟩
    · exact Nat.le_of_lt (hlt hi)
    · exact Nat.le_refl _
  · rcases hlive hi with hi | ⟨rfl, -⟩ <;> rcases hlive hi' with hi' | ⟨rfl, rfl⟩
    · exact h.nested i r i' r' hi hi' hs hii
    · exact h.chain i r hi hs
    · exact absurd hii (Nat.lt_asymm (hlt hi'))
    · exact absurd hii (Nat.lt_irrefl _)

/-- No visit has the new link before. -/
theorem clearFor_demand (hc : Course g order fs past s)
    (h : (s.required c link o p ts).Episode g session t) :
    t.ClearFor (c.demand p.formula s.nextRevisit) := by
  have hclear : (s.required c link o p ts).ClearFor (c.demand p.formula s.nextRevisit) := by
    refine .inr ⟨Context.climbs_of_history_eq rfl, fun k hk _ hl => ?_⟩
    exact absurd s.record?_nextRevisit ((hc.visited_known (visited_required ▸ hk)).2 _ hl)
  exact hclear.episode h

/-! ### A session inside -/

theorem live_of_inquired (hk : p.kind ≠ .required) (hm : Move g s (s.inquired c link o p ts))
    {i : RevisitId} {r : Revisit} (h : (s.inquired c link o p ts).Live i r) : s.Live i r := by
  refine h.of_moves (.single hm) fun hrec => ?_
  rcases record?_inquired.mp hrec with hrec | ⟨-, he⟩
  · exact hrec
  · cases he
    exact absurd h.kind hk

/-- The new session is on a smaller formula than those that are open. -/
theorem Primed.inquire {root : Formula × Window} (h : s.Primed g fs c.session link)
    (hroot : s.scope? (current fs) c.session = some root) (hsize : p.formula.size < root.1.size)
    (hk : p.kind ≠ .required) (hm : Move g s (s.inquired c link o p ts)) :
    (s.inquired c link o p ts).Primed g fs (some s.nextSession) none where
  course := h.course.imp fun _ hc => hc.move hm
  resolved := (resolved_retain _ _ _).trans h.resolved
  opened := (open_inquired h.valid).mpr (.inr rfl)
  least i k root' hi hkey hroot' := by
    rw [scope?, key?_inquired.mpr (.inr ⟨rfl, rfl⟩)] at hroot'
    cases hroot'
    rcases key?_inquired.mp hkey with hkey | ⟨-, rfl⟩
    · refine Nat.le_of_lt (Nat.lt_of_lt_of_le hsize (h.least i k root ?_ hkey hroot))
      refine ((open_inquired h.valid).mp hi).resolve_right fun hnew => ?_
      obtain ⟨v, hv⟩ := h.valid.session?_of_key? hkey
      rw [Option.some.inj hnew, h.valid.session?_nextSession] at hv
      cases hv
    · exact Nat.le_refl _
  clear i r hi := by
    refine (h.clear i r (live_of_inquired hk hm hi)).mono (.single hm) ?_
    exact fun k hk _ _ => .inl (visited_inquired ▸ hk)
  chain i r hi hs := by
    have hknown := (h.valid.revisits i _ (live_of_inquired hk hm hi).record).1.session
    rw [hs] at hknown
    exact absurd (not_open_nextSession h.valid) hknown
  nested i r i' r' hi hi' := h.nested i r i' r' (live_of_inquired hk hm hi)
    (live_of_inquired hk hm hi')

/-- Once the session has its result and the obligation was told, nothing is left of the session. -/
theorem Episode.of_session (hv : s.Valid g) (hk : p.kind ≠ .required)
    (hm : Move g s (s.inquired c link o p ts))
    (hu : (s.inquired c link o p ts).Episode g (some s.nextSession) u)
    (hclosed : ¬ u.Open (some s.nextSession)) (hut : Moves g u t) (hvis : t.visited = u.visited)
    (hrev : t.revisits = u.revisits) (hres : ∀ k, t.result? k = u.result? k)
    (hses : ∀ i, i ≠ s.nextSession → t.session? i = u.session? i) : s.Episode g c.session t where
  moves := (Moves.single hm).trans (hu.moves.trans hut)
  visited k hk := by
    rw [hvis] at hk
    exact (hu.visited k hk).imp (fun hk => visited_inquired ▸ hk) (·.moves hut)
  live i r hi := by
    have hi' : u.Live i r := hi.of_moves hut fun hrec => by rw [record?, ← hrev]; exact hrec
    exact live_of_inquired hk hm (hu.live i r hi')
  resumed i r hi hk hr := by
    have hr' : u.Resumed (some i) := fun m hm => by rw [record?, ← hrev]; exact hr m hm
    exact (hu.resumed i r (record?_inquired.mpr (.inl hi)) hk hr').moves hut
  opened k hk := by
    have hk' : u.Open k := (hres k).symm.trans hk
    refine ((open_inquired hv).mp (hu.opened k hk')).resolve_right ?_
    rintro rfl
    exact hclosed hk'
  kept k _ hk := by
    refine (hres k).trans (hu.kept k ?_ ((open_inquired hv).mpr (.inl hk)))
    rintro rfl
    cases (not_open_nextSession hv).symm.trans hk
  waiters i v hi := by
    obtain ⟨v', hi', hv'⟩ : ∃ v', (s.inquired c link o p ts).session? i = some v' ∧
      v'.waiters = v.waiters := waiters_inquired hi
    obtain ⟨v'', hi'', hv''⟩ := hu.waiters i v' hi'
    refine ⟨v'', (hses i ?_).trans hi'', hv''.trans hv'⟩
    rintro rfl
    cases hv.session?_nextSession.symm.trans hi

end Revisits

end Search

end CostCTL
