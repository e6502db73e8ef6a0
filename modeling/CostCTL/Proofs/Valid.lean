import CostCTL.Proofs.Course

/-!
# References

Whatever a search refers to is on record: nodes lie in the graph, sessions and links exist, a link
goes to an earlier revisit, and a waiter waits for the session that looks into its precondition.
-/

namespace CostCTL

variable {g : Kripke} {s t : Search}

namespace Search

/-- Node, session and link are there. -/
structure Known (g : Kripke) (s : Search) (c : Context) (link : Option RevisitId) : Prop where
  node : c.node.index < g.size
  session : s.result? c.session ≠ none
  link : ∀ i, link = some i → s.record? i ≠ none

/-- The session looks into the precondition of the revisit. -/
def Waits (s : Search) (i : SessionId) (w : RevisitId) : Prop :=
  ∃ e, s.record? w = some e ∧ e.revisit.precondition.formula.isState = false ∧
    e.revisit.precondition.kind ≠ .required ∧
    s.key? i = some (e.revisit.inquiry e.revisit.precondition.formula).sessionKey

theorem Extends.result_ne_none (h : s.Extends t) {session : Option SessionId}
    (hs : s.result? session ≠ none) : t.result? session ≠ none := by
  obtain ⟨r, hr⟩ := Option.ne_none_iff_exists'.mp hs
  obtain ⟨r', hr', -⟩ := h.result session r hr
  simp [hr']

theorem Extends.entry_ne_none (h : s.Extends t) {i : RevisitId} (hs : s.record? i ≠ none) :
    t.record? i ≠ none := by
  obtain ⟨e, he⟩ := Option.ne_none_iff_exists'.mp hs
  obtain ⟨b, hb, -⟩ := h.entry i e he
  simp [hb]

theorem Extends.settled (h : s.Extends t) {session : Option SessionId} (hs : s.Settled session) :
    t.Settled session := by
  obtain ⟨r, hr, hp⟩ := hs
  obtain ⟨r', hr', heq⟩ := h.result session r hr
  exact ⟨r', hr', by rw [heq hp]; exact hp⟩

theorem Known.extends {c : Context} {link : Option RevisitId} (hk : s.Known g c link)
    (h : s.Extends t) : t.Known g c link :=
  ⟨hk.node, h.result_ne_none hk.session, fun i hi => h.entry_ne_none (hk.link i hi)⟩

theorem Waits.extends {i : SessionId} {w : RevisitId} (hw : s.Waits i w) (h : s.Extends t) :
    t.Waits i w := by
  obtain ⟨e, he, hp, hk, hkey⟩ := hw
  obtain ⟨b, hb, -⟩ := h.entry w e he
  exact ⟨⟨e.revisit, b⟩, hb, hp, hk, h.key i _ hkey⟩

end Search

/-- What the task refers to is there. -/
def Task.Valid (g : Kripke) (s : Search) : Task → Prop
  | .process j => s.Known g j.toContext j.link
  | .execute n c link _ | .resume n c link => s.Known g c link ∧ chainBound link ≤ n
  | .fail session _ | .release session => s.result? session ≠ none
  | .tell result w => ∃ i, s.Waits i w ∧ s.result? (some i) = some result ∧ result ≠ .pending

theorem Task.Valid.extends {k : Task} (hk : k.Valid g s) (h : s.Extends t) : k.Valid g t := by
  cases k with
  | process j => exact Search.Known.extends hk h
  | execute n c link o => exact ⟨hk.1.extends h, hk.2⟩
  | resume n c link => exact ⟨hk.1.extends h, hk.2⟩
  | fail session x => exact h.result_ne_none hk
  | release session => exact h.result_ne_none hk
  | tell result w =>
    obtain ⟨i, hw, hr, hp⟩ := hk
    obtain ⟨r', hr', heq⟩ := h.result (some i) result hr
    exact ⟨i, hw.extends h, by rw [hr', heq hp], hp⟩

namespace Search

structure Valid (g : Kripke) (s : Search) : Prop where
  keys : s.sessions.length = s.keys.length
  distinct : s.keys.Nodup
  queue : ∀ j ∈ s.queue, s.Known g j.toContext j.link
  revisits : ∀ i e, s.record? i = some e → s.Known g e.revisit.toContext e.revisit.parent ∧
    ∀ p, e.revisit.parent = some p → p.index < i.index
  waiters : ∀ i t, s.session? i = some t → ∀ w ∈ t.waiters.toList, s.Waits i w
  resolved : ∀ i ∈ s.resolved, s.Settled (some i)
  tasks : ∀ k ∈ s.tasks, k.Valid g s

namespace Valid

/-- Sessions and revisits are the same, and what else there is refers to them. -/
theorem of_eq (h : s.Valid g) (hk : t.keys = s.keys) (hs : t.sessions = s.sessions)
    (hr : t.revisits = s.revisits) (he : s.Extends t)
    (queue : ∀ j ∈ t.queue, s.Known g j.toContext j.link)
    (resolved : ∀ i ∈ t.resolved, s.Settled (some i)) (tasks : ∀ k ∈ t.tasks, k.Valid g s) :
    t.Valid g where
  keys := by rw [hk, hs]; exact h.keys
  distinct := by rw [hk]; exact h.distinct
  queue j hj := (queue j hj).extends he
  revisits i e hi := by
    rw [record?, hr] at hi
    exact ⟨(h.revisits i e hi).1.extends he, (h.revisits i e hi).2⟩
  waiters i u hi w hw := by
    rw [session?, hs] at hi
    exact (h.waiters i u hi w hw).extends he
  resolved i hi := he.settled (resolved i hi)
  tasks k hk := (tasks k hk).extends he

theorem withTasks (h : s.Valid g) {ts : List Task} (ht : ∀ k ∈ ts, k.Valid g s) :
    (s.withTasks ts).Valid g :=
  h.of_eq rfl rfl rfl ((Extends.refl s).withTasks ts) h.queue h.resolved ht

/-- A change of one session that leaves its waiters alone. -/
theorem modifySession (h : s.Valid g) {i : SessionId} {f : Session → Session}
    (he : s.Extends (s.modifySession i f)) (hf : ∀ t, (f t).waiters = t.waiters) :
    (s.modifySession i f).Valid g where
  keys := by rw [Search.modifySession, Numbered.length_modify]; exact h.keys
  distinct := h.distinct
  queue j hj := (h.queue j hj).extends he
  revisits i e hi := ⟨(h.revisits i e hi).1.extends he, (h.revisits i e hi).2⟩
  waiters k t hk w hw := by
    rw [session?_modifySession] at hk
    split at hk
    · obtain ⟨u, hu, rfl⟩ := Option.map_eq_some_iff.mp hk
      rw [hf] at hw
      exact (h.waiters k u hu w hw).extends he
    · exact (h.waiters k t hk w hw).extends he
  resolved i hi := he.settled (h.resolved i hi)
  tasks k hk := (h.tasks k hk).extends he

theorem retain (h : s.Valid g) (n : Nat) (session : Option SessionId) :
    (s.retain n session).Valid g := by
  cases session with
  | none => exact h
  | some i => exact h.modifySession (s.extends_retain n (some i)) (by intro t; rfl)

theorem exceed (h : s.Valid g) (i : SessionId) (x : Counterexample) : (s.exceed i x).Valid g :=
  h.modifySession (s.extends_exceed i x) (by intro t; rfl)

theorem release (h : s.Valid g) (i : SessionId) : (s.release i).Valid g :=
  h.modifySession (s.extends_release i) (by intro t; rfl)

theorem push (h : s.Valid g) {session : Option SessionId} {jobs : List Job}
    (hj : ∀ j ∈ jobs, s.Known g j.toContext j.link) : (s.push session jobs).Valid g := by
  have he := s.extends_retain jobs.length session
  have hr := h.retain jobs.length session
  refine hr.of_eq rfl rfl rfl (.of_eq rfl rfl (fun _ => rfl) rfl) (fun j hj' => ?_) hr.resolved
    hr.tasks
  rcases List.mem_append.mp hj' with hj' | hj'
  · exact (h.queue j hj').extends he
  · exact (hj j hj').extends he

theorem suspend (h : s.Valid g) {r : Revisit} (hr : s.Known g r.toContext r.parent) :
    (s.suspend r).Valid g where
  keys := h.keys
  distinct := h.distinct
  queue j hj := (h.queue j hj).extends (s.extends_suspend r)
  revisits i e hi := by
    have he := s.extends_suspend r
    rcases Numbered.get?_concat_eq_some.mp hi with hi | ⟨hi, rfl⟩
    · exact ⟨(h.revisits i e hi).1.extends he, (h.revisits i e hi).2⟩
    · refine ⟨hr.extends he, fun p hp => ?_⟩
      have := (Numbered.get?_ne_none_iff.mp (hr.link p hp)).2
      omega
  waiters i t hi w hw := (h.waiters i t hi w hw).extends (s.extends_suspend r)
  resolved i hi := (s.extends_suspend r).settled (h.resolved i hi)
  tasks k hk := (h.tasks k hk).extends (s.extends_suspend r)

theorem markResumed (h : s.Valid g) (i : RevisitId) : (s.markResumed i).Valid g where
  keys := h.keys
  distinct := h.distinct
  queue j hj := (h.queue j hj).extends (s.extends_markResumed i)
  revisits k e hk := by
    have he := s.extends_markResumed i
    rw [record?_markResumed] at hk
    split at hk
    · obtain ⟨e', he', rfl⟩ := Option.map_eq_some_iff.mp hk
      exact ⟨(h.revisits k e' he').1.extends he, (h.revisits k e' he').2⟩
    · exact ⟨(h.revisits k e hk).1.extends he, (h.revisits k e hk).2⟩
  waiters k t hk w hw := (h.waiters k t hk w hw).extends (s.extends_markResumed i)
  resolved k hk := (s.extends_markResumed i).settled (h.resolved k hk)
  tasks k hk := (h.tasks k hk).extends (s.extends_markResumed i)

theorem complete (h : s.Valid g) {i : SessionId} (hi : s.Open (some i)) {result : SessionResult}
    (hr : result ≠ .pending) : (s.complete i result).Valid g := by
  have he := extends_complete hi result
  have hm : (s.modifySession i fun t => { t with result }).Valid g :=
    h.modifySession ⟨he.entry, he.key, he.result, he.visited⟩ (by intro t; rfl)
  refine hm.of_eq rfl rfl rfl (.of_eq rfl rfl (fun _ => rfl) rfl) hm.queue (fun k hk => ?_)
    hm.tasks
  rcases List.mem_append.mp hk with hk | hk
  · exact hm.resolved k hk
  · rw [List.mem_singleton.mp hk]
    exact ⟨result, (result?_complete s hi result (some i)).trans (if_pos rfl), hr⟩

/-- The session of a key that is on record. -/
theorem session?_of_key? (h : s.Valid g) {i : SessionId} {k : SessionKey} (hk : s.key? i = some k) :
    ∃ t, s.session? i = some t := by
  refine Option.ne_none_iff_exists'.mp (Numbered.get?_ne_none_iff.mpr ?_)
  exact ⟨Numbered.pos_of_get? hk, h.keys ▸ Numbered.le_of_get? hk⟩

theorem key?_of_result? (h : s.Valid g) {i : SessionId} (hi : s.result? (some i) ≠ none) :
    ∃ k, s.key? i = some k := by
  obtain ⟨r, hr⟩ := Option.ne_none_iff_exists'.mp hi
  obtain ⟨t, ht, -⟩ := Option.map_eq_some_iff.mp hr
  refine Option.ne_none_iff_exists'.mp (Numbered.get?_ne_none_iff.mpr ?_)
  exact ⟨Numbered.pos_of_get? ht, h.keys ▸ Numbered.le_of_get? ht⟩

theorem join (h : s.Valid g) {i : SessionId} {w : RevisitId} (hw : s.Waits i w) :
    (s.join i w).Valid g where
  keys := by rw [Search.join, Search.modifySession, Numbered.length_modify]; exact h.keys
  distinct := h.distinct
  queue j hj := (h.queue j hj).extends (s.extends_join i w)
  revisits k e hk := ⟨(h.revisits k e hk).1.extends (s.extends_join i w), (h.revisits k e hk).2⟩
  waiters k t hk v hv := by
    have he := s.extends_join i w
    rw [Search.join, session?_modifySession] at hk
    split at hk
    · next heq =>
      subst heq
      obtain ⟨u, hu, rfl⟩ := Option.map_eq_some_iff.mp hk
      rw [Deque.toList_pushBack, List.mem_append, List.mem_singleton] at hv
      rcases hv with hv | rfl
      · exact (h.waiters k u hu v hv).extends he
      · exact hw.extends he
    · exact (h.waiters k t hk v hv).extends he
  resolved k hk := (s.extends_join i w).settled (h.resolved k hk)
  tasks k hk := (h.tasks k hk).extends (s.extends_join i w)

theorem openSession (h : s.Valid g) {root : Job} {w : RevisitId} (hroot : root.node.index < g.size)
    (hlink : root.link = none) (hkey : root.sessionKey ∉ s.keys)
    (hw : ∀ t : Search, s.Extends t → t.key? s.nextSession = some root.sessionKey →
      t.Waits s.nextSession w) : (s.openSession root w).Valid g := by
  have he := s.extends_openSession root w
  have hnext : (s.openSession root w).session? s.nextSession =
      some ⟨.pending, Deque.empty.pushBack w, 1, none⟩ := by
    rw [session?, nextSession, Search.openSession, ← h.keys]
    exact Numbered.get?_concat_self _ _
  refine ⟨?_, ?_, fun j hj => ?_, fun i e hi => ?_, fun i t hi v hv => ?_, fun i hi => ?_,
    fun k hk => ?_⟩
  · simp [Search.openSession, h.keys]
  · rw [Search.openSession, List.nodup_append]
    refine ⟨h.distinct, by simp, fun a ha b hb => ?_⟩
    rw [List.mem_singleton.mp hb]
    rintro rfl
    exact hkey ha
  · rcases List.mem_append.mp hj with hj | hj
    · exact (h.queue j hj).extends he
    · rw [List.mem_singleton.mp hj]
      refine ⟨hroot, ?_, fun i hi => ?_⟩
      · rw [result?, hnext]
        simp
      · rw [hlink] at hi
        cases hi
  · exact ⟨(h.revisits i e hi).1.extends he, (h.revisits i e hi).2⟩
  · rcases Numbered.get?_concat_eq_some.mp hi with hold | ⟨hnew, rfl⟩
    · exact (h.waiters i t hold v hv).extends he
    · obtain rfl : v = w := by simpa using hv
      have : i = s.nextSession := by
        cases i
        simp only [nextSession, SessionId.mk.injEq, ← h.keys]
        exact hnew
      subst this
      exact hw _ he (Numbered.get?_concat_self _ _)
  · exact he.settled (h.resolved i hi)
  · exact (h.tasks k hk).extends he

theorem dismiss (h : s.Valid g) (i : SessionId) : (s.dismiss i).Valid g where
  keys := by rw [Search.dismiss, Search.modifySession, Numbered.length_modify]; exact h.keys
  distinct := h.distinct
  queue j hj := (h.queue j hj).extends (s.extends_dismiss i)
  revisits k e hk := ⟨(h.revisits k e hk).1.extends (s.extends_dismiss i), (h.revisits k e hk).2⟩
  waiters k t hk v hv := by
    rw [Search.dismiss, session?_modifySession] at hk
    split at hk
    · obtain ⟨u, -, rfl⟩ := Option.map_eq_some_iff.mp hk
      simp at hv
    · exact (h.waiters k t hk v hv).extends (s.extends_dismiss i)
  resolved k hk := (s.extends_dismiss i).settled (h.resolved k hk)
  tasks k hk := (h.tasks k hk).extends (s.extends_dismiss i)

end Valid

/-! ### Every move keeps references -/

theorem Known.of_eq {c d : Context} {link : Option RevisitId} (h : s.Known g c link)
    (hn : d.node = c.node) (hs : d.session = c.session) : s.Known g d link :=
  ⟨hn ▸ h.node, hs ▸ h.session, h.link⟩

theorem Known.spread {c : Context} {link : Option RevisitId} (h : s.Known g c link)
    {history : History} {f : Formula} {j : Job} (hj : j ∈ c.spread g link history f) :
    s.Known g j.toContext j.link := by
  obtain ⟨e, he, rfl⟩ := List.mem_map.mp hj
  exact ⟨Kripke.target_inside he, h.session, h.link⟩

theorem Known.jobs {c : Context} {link : Option RevisitId} (h : s.Known g c link) {o : Obligation}
    {jobs : List Job} (hj : o.jobs? g c link = some jobs) :
    ∀ j ∈ jobs, s.Known g j.toContext j.link := by
  cases o with
  | here f =>
    cases hj
    simpa using h
  | successors f | step f =>
    cases hj
    exact fun j hj => h.spread hj
  | constrain f w =>
    rw [Obligation.jobs?] at hj
    split at hj
    · cases hj
      exact fun j hj => List.mem_singleton.mp hj ▸ h.of_eq rfl rfl
    · cases hj
  | revisit o p => cases hj

end Search

open Search

theorem Reaction.tasks_valid {n : Nat} {c : Context} {link : Option RevisitId}
    (h : s.Known g c link) (hn : chainBound link ≤ n) (r : Reaction) (o : Obligation) :
    ∀ k ∈ r.tasks n c link o, k.Valid g s := by
  intro k hk
  cases r with
  | proceed | met =>
    obtain rfl := List.mem_singleton.mp hk
    exact ⟨h, hn⟩
  | fail e =>
    obtain rfl := List.mem_singleton.mp hk
    exact h.session

theorem Unfolding.tasks_valid {j : Job} (h : s.Known g j.toContext j.link) (u : Unfolding) :
    ∀ k ∈ u.tasks j, k.Valid g s := by
  intro k hk
  cases u with
  | pass | obligation o =>
    obtain rfl := List.mem_singleton.mp hk
    exact ⟨h, Nat.le_refl _⟩
  | fail v =>
    obtain rfl := List.mem_singleton.mp hk
    exact h.session

section

variable {k : Task} {ts : List Task}

theorem Search.Valid.head (h : s.Valid g) (ht : s.tasks = k :: ts) : k.Valid g s :=
  h.tasks k (by rw [ht]; exact List.mem_cons_self)

theorem Search.Valid.tail (h : s.Valid g) (ht : s.tasks = k :: ts) : ∀ k' ∈ ts, k'.Valid g s :=
  fun k' hk' => h.tasks k' (by rw [ht]; exact List.mem_cons_of_mem _ hk')

/-- The first task gives way to others. -/
theorem Search.Valid.replace (h : s.Valid g) (ht : s.tasks = k :: ts) {l : List Task}
    (hn : ∀ k' ∈ l, k'.Valid g s) : (s.withTasks (l ++ ts)).Valid g :=
  h.withTasks fun k' hk' => (List.mem_append.mp hk').elim (hn k') (h.tail ht k')

/-- The first task is done. -/
theorem Search.Valid.drop (h : s.Valid g) (ht : s.tasks = k :: ts) (he : s.Extends t)
    (hv : t.Valid g) : (t.withTasks ts).Valid g :=
  hv.withTasks fun k' hk' => (h.tail ht k' hk').extends he

end

/-- A revisit for the precondition waits, once it is on record, for the session with its key. -/
theorem Search.waits_suspend {c : Context} {o : Obligation} {p : Precondition}
    {link : Option RevisitId} {i : SessionId} (hp : p.formula.isState = false)
    (hk : p.kind ≠ .required) (he : (s.suspend ⟨c, o, p, link⟩).Extends t)
    (hkey : t.key? i = some (c.inquiry p.formula).sessionKey) : t.Waits i s.nextRevisit := by
  obtain ⟨b, hb, -⟩ := he.entry s.nextRevisit ⟨⟨c, o, p, link⟩, false⟩
    (Numbered.get?_concat_self _ _)
  exact ⟨_, hb, hp, hk, hkey⟩

theorem Search.known_demand {c : Context} {o : Obligation} {p : Precondition}
    {link : Option RevisitId} (h : s.Known g c link) :
    (s.suspend ⟨c, o, p, link⟩).Known g (c.demand p.formula s.nextRevisit).toContext
      (c.demand p.formula s.nextRevisit).link := by
  refine ⟨h.node, h.session, fun i hi => ?_⟩
  obtain rfl := Option.some.inj hi
  have : (s.suspend ⟨c, o, p, link⟩).record? s.nextRevisit = some ⟨⟨c, o, p, link⟩, false⟩ :=
    Numbered.get?_concat_self _ _
  simp [this]

theorem Search.Valid.outcome_ne_pending (t : Session) : t.outcome ≠ .pending := by
  unfold Session.outcome
  cases t.exceeded <;> simp

theorem Move.valid (h : Move g s t) (hs : s.Valid g) : t.Valid g := by
  cases h with
  | @notify i rest t ht hr hi =>
    have hset : s.Settled (some i) := hs.resolved i (by simp [hr])
    obtain ⟨r, hres, hp⟩ := hset
    have hr' : t.result = r := by simpa [result?, hi] using hres
    refine (hs.dismiss i).of_eq rfl rfl rfl (.of_eq rfl rfl (fun _ => rfl) rfl)
      (hs.dismiss i).queue (fun k hk => ?_) fun k hk => ?_
    · exact (s.extends_dismiss i).settled (hs.resolved k (by rw [hr]; exact .tail _ hk))
    · obtain ⟨w, hw, rfl⟩ := List.mem_map.mp hk
      refine ⟨i, (hs.waiters i t hi w hw).extends (s.extends_dismiss i), ?_, hr' ▸ hp⟩
      rw [result?_dismiss, hres, hr']
  | @take j rest ht hr hq =>
    have hsub : j ∈ s.queue ∧ ∀ k ∈ rest, k ∈ s.queue := by
      unfold Takes at hq
      split at hq <;> simp [hq] <;> grind
    refine hs.of_eq rfl rfl rfl (.of_eq rfl rfl (fun _ => rfl) rfl)
      (fun k hk => hs.queue k (hsub.2 k hk)) hs.resolved fun k hk => ?_
    obtain rfl := List.mem_singleton.mp hk
    exact hs.queue j hsub.1
  | stale ht _ | repeated ht _ _ =>
    exact hs.replace (l := [_]) ht (List.forall_mem_singleton.mpr (hs.head ht).session)
  | @visit j ts node u ht ho hv hn hu =>
    have hj : s.Known g j.toContext j.link := hs.head ht
    have hx : s.Extends { s with visited := s.visited ++ [j.visitKey] } :=
      ⟨fun _ e he => ⟨e.resumed, he, id⟩, fun _ _ hk => hk,
        fun _ r hr => ⟨r, hr, fun _ => rfl⟩, fun v hv => List.mem_append_left _ hv⟩
    refine hs.of_eq rfl rfl rfl ⟨hx.entry, hx.key, hx.result, hx.visited⟩ hs.queue hs.resolved
      fun k hk => ?_
    rcases List.mem_append.mp hk with hk | hk
    · exact u.tasks_valid hj k hk
    · rcases List.mem_cons.mp hk with rfl | hk
      · exact hj.session
      · exact hs.tail ht k hk
  | spawn ht hj =>
    exact hs.drop ht (s.extends_push _ _) (hs.push ((hs.head ht).1.jobs hj))
  | judge ht hp hn hj =>
    exact hs.replace ht (Reaction.tasks_valid (hs.head ht).1 (hs.head ht).2 _ _)
  | require ht hp hk =>
    have hc := (hs.head ht).1
    exact hs.drop ht ((s.extends_suspend _).trans (extends_push _ _ _))
      ((hs.suspend hc).push (by simpa using known_demand hc))
  | @inquire n c link o p ts ht hp hk hkey =>
    have hc := (hs.head ht).1
    refine hs.drop ht (((s.extends_suspend _).trans (extends_openSession _ _ _)).trans
      (extends_retain _ _ _)) (Valid.retain ?_ _ _)
    refine (hs.suspend (r := ⟨c, o, p, link⟩) hc).openSession hc.node rfl hkey ?_
    exact fun t he hk' => waits_suspend hp hk he hk'
  | @join n c link o p ts i ht hp hk hkey hi =>
    have hc := (hs.head ht).1
    refine hs.drop ht (((s.extends_suspend _).trans (extends_join _ _ _)).trans
      (extends_retain _ _ _)) (Valid.retain ?_ _ _)
    exact (hs.suspend (r := ⟨c, o, p, link⟩) hc).join (waits_suspend hp hk (.refl _) hkey)
  | answerLate ht hp hk hkey hi hs' =>
    exact hs.drop ht (s.extends_suspend _) (hs.suspend (hs.head ht).1)
  | @answer n c link o p ts i t finding ht hp hk hkey hi hf ho =>
    have hc := (hs.head ht).1
    have he := s.extends_suspend ⟨c, o, p, link⟩
    refine (hs.suspend (r := ⟨c, o, p, link⟩) hc).withTasks fun k hk' => ?_
    rcases List.mem_append.mp hk' with hk' | hk'
    · exact Reaction.tasks_valid (hc.extends he) (hs.head ht).2 _ _ k hk'
    · exact (hs.tail ht k hk').extends he
  | resumeNone ht | resumeAgain ht _ _ | decideLate ht _ _ | releaseNone ht =>
    exact hs.withTasks (hs.tail ht)
  | resumeLate ht hi hr hs' => exact hs.drop ht (s.extends_markResumed _) (hs.markResumed _)
  | @resume n c i ts e ht hi hr ho =>
    have he := s.extends_markResumed i
    refine (hs.markResumed i).withTasks fun k hk => ?_
    rcases List.mem_cons.mp hk with rfl | hk
    · obtain ⟨hknown, hless⟩ := hs.revisits i e hi
      refine ⟨hknown.extends he, ?_⟩
      have hb : i.index ≤ n + 1 := (hs.head ht).2
      cases hp : e.revisit.parent with
      | none => exact Nat.zero_le n
      | some p =>
        have := hless p hp
        simp only [chainBound, Option.elim]
        omega
    · exact (hs.tail ht k hk).extends he
  | tellLate ht hi hs' =>
    exact hs.replace (l := [_]) ht (List.forall_mem_singleton.mpr (hs.revisits _ _ hi).1.session)
  | @tell result i ts e finding ht hi hf ho =>
    obtain ⟨hknown, -⟩ := hs.revisits i e hi
    refine hs.withTasks fun k hk => ?_
    rcases List.mem_append.mp hk with hk | hk
    · exact Reaction.tasks_valid hknown (Nat.le_refl _) _ _ k hk
    · rcases List.mem_cons.mp hk with rfl | hk
      · exact hknown.session
      · exact hs.tail ht k hk
  | exceed ht hx => exact hs.drop ht (s.extends_exceed _ _) (hs.exceed _ _)
  | decide ht hx hi =>
    exact hs.drop ht (extends_complete hi _) (hs.complete hi (by simp))
  | release ht hi hn hl => exact hs.drop ht (s.extends_release _) (hs.release _)
  | @finish i ts t ht hi hn hr =>
    have hopen : (s.release i).Open (some i) := by
      rw [Open, result?_release, result?, hi, Option.map_some, hr]
    exact hs.drop ht ((s.extends_release i).trans (extends_complete hopen _))
      ((hs.release i).complete hopen (Valid.outcome_ne_pending t))

end CostCTL
