import CostCTL.Proofs.Determinism
import CostCTL.Proofs.Finished

/-!
# Stretches of work

From one search to a later one, work is done for a session: what was begun in between is finished,
sessions that were opened in between have their results, and what waited before goes on waiting
(`Search.Stretch`). Depth first, a search consists of such stretches, one inside the other.

A search is `Poised` for work of a session if nothing is in the way of the next stretch: revisits
that are still to be resumed find their visits as they left them.
-/

namespace CostCTL

open Formula

variable {g : Kripke} {s t u : Search} {session : Option SessionId} {order : PendingOrder}
  {fs : List Formula} {past : Search}

/-! ### Order and visits on the course -/

theorem Move.order_eq (h : Move g s t) : t.order = s.order := by
  cases h with
  | spawn | require | inquire | join => exact Search.order_retain _ _ _
  | _ => rfl

theorem Course.order_eq (h : Course g order fs past s) : s.order = order := by
  induction h with
  | start => rfl
  | seed _ _ _ ih => exact ih
  | move _ hm ih => exact hm.order_eq.trans ih

theorem Move.visited_eq (h : Move g s t) : t.visited = s.visited ∨
    ∃ j ts, s.tasks = .process j :: ts ∧ t.visited = s.visited ++ [j.visitKey] := by
  cases h with
  | visit ht => exact .inr ⟨_, _, ht, rfl⟩
  | spawn | require | inquire | join => exact .inl (Search.visited_retain _ _ _)
  | _ => exact .inl rfl

/-- Session and link of a visit are on record. -/
theorem Course.visited_known (h : Course g order fs past s) {k : VisitKey} (hk : k ∈ s.visited) :
    s.result? k.session ≠ none ∧ ∀ i, k.link = some i → s.record? i ≠ none := by
  induction h with
  | start => cases hk
  | seed _ _ _ ih => exact ih hk
  | @move _ _ s _ before hm ih =>
    suffices hs : s.result? k.session ≠ none ∧ ∀ i, k.link = some i → s.record? i ≠ none from
      ⟨hm.extends.result_ne_none hs.1, fun i hi => hm.extends.entry_ne_none (hs.2 i hi)⟩
    rcases hm.visited_eq with hv | ⟨j, ts, ht, hv⟩
    · exact ih (hv ▸ hk)
    · rw [hv, List.mem_append, List.mem_singleton] at hk
      rcases hk with hk | rfl
      · exact ih hk
      · have hknown : s.Known g j.toContext j.link := before.valid_accounts.1.head ht
        exact ⟨hknown.session, hknown.link⟩

/-! ### What a stretch leaves -/

/-- What is left to do of a revisit once its precondition holds. -/
def Revisit.rest (r : Revisit) : Work := .todo r.toContext r.parent r.resume

namespace Search

/-- The revisit is to be resumed when something that it requires is found. -/
structure Alive (s : Search) (i : RevisitId) (r : Revisit) : Prop where
  record : s.record? i = some ⟨r, false⟩
  kind : r.precondition.kind = .required
  opened : s.Open r.session

theorem Alive.not_resumed {i : RevisitId} {r : Revisit} (h : s.Alive i r) :
    ¬ s.Resumed (some i) := by
  intro hr
  obtain ⟨e, he, htrue⟩ := hr i rfl
  cases h.record.symm.trans he
  cases htrue

/-- The sessions that passed are on formulas that hold, if need be without this one. -/
def HonestBut (g : Kripke) (session : Option SessionId) (s : Search) : Prop :=
  ∀ i k, some i ≠ session → s.key? i = some k → s.result? (some i) = some .pass →
    k.formula.Holds g k.node

theorem HonestBut.honest (h : s.HonestBut g session) (ho : s.Open session) : s.Honest g := by
  intro i k hk hr
  refine h i k (fun hi => ?_) hk hr
  rw [hi] at hr
  cases hr.symm.trans ho

/-- Work was done for the session. Of what came up meanwhile, all visits are finished, all revisits
are resumed and all sessions have their results. -/
structure Stretch (g : Kripke) (session : Option SessionId) (s t : Search) : Prop where
  moves : Moves g s t
  visited : ∀ k ∈ t.visited, k ∈ s.visited ∨ t.Finished g k
  alive : ∀ i r, t.Alive i r → s.Alive i r
  resumed : ∀ i r, s.Alive i r → t.Resumed (some i) → t.Served g r.rest
  opened : ∀ k, t.Open k → s.Open k
  kept : ∀ k, k ≠ session → s.Open k → t.Open k
  waiters : ∀ i v, s.session? i = some v → ∃ v', t.session? i = some v' ∧ v'.waiters = v.waiters
  honest : s.Honest g → t.HonestBut g session

namespace Stretch

/-- A revisit is alive until it is resumed, as long as its session is open. -/
theorem alive_or_resumed {i : RevisitId} {r : Revisit} (h : s.Stretch g session t)
    (ho : t.Open session) (hs : s.Alive i r) : t.Alive i r ∨ t.Resumed (some i) := by
  obtain ⟨b, hb, -⟩ := h.moves.extends.entry i _ hs.record
  cases b with
  | false =>
    refine .inl ⟨hb, hs.kind, ?_⟩
    by_cases hr : r.session = session
    · exact hr ▸ ho
    · exact h.kept _ hr hs.opened
  | true => exact .inr fun k hk => ⟨_, Option.some.inj hk ▸ hb, rfl⟩

theorem trans (h : s.Stretch g session t) (ho : t.Open session) (h' : t.Stretch g session u) :
    s.Stretch g session u where
  moves := h.moves.trans h'.moves
  visited k hk := by
    rcases h'.visited k hk with hk | hk
    · exact (h.visited k hk).imp_right (·.extends h'.moves.extends)
    · exact .inr hk
  alive i r hr := h.alive i r (h'.alive i r hr)
  resumed i r hs hr := by
    rcases h.alive_or_resumed ho hs with ht | ht
    · exact h'.resumed i r ht hr
    · exact (h.resumed i r hs ht).extends h'.moves.extends
  opened k hk := h.opened k (h'.opened k hk)
  kept k hne hk := h'.kept k hne (h.kept k hne hk)
  waiters i v hi := by
    obtain ⟨v', hi', hv'⟩ := h.waiters i v hi
    obtain ⟨v'', hi'', hv''⟩ := h'.waiters i v' hi'
    exact ⟨v'', hi'', hv''.trans hv'⟩
  honest hs := h'.honest ((h.honest hs).honest ho)

/-- Nothing comes up, and at most the session itself gets a result. -/
theorem of_eq (hm : Moves g s t) (hv : t.visited = s.visited) (hk : t.keys = s.keys)
    (hrec : ∀ i r, r.precondition.kind = .required →
      (t.record? i = some ⟨r, false⟩ ↔ s.record? i = some ⟨r, false⟩))
    (hres : ∀ k, k ≠ session → t.result? k = s.result? k) (ho : t.Open session → s.Open session)
    (hw : ∀ i v, s.session? i = some v → ∃ v', t.session? i = some v' ∧ v'.waiters = v.waiters) :
    s.Stretch g session t := by
  have hopen (k : Option SessionId) (hk : t.Open k) : s.Open k := by
    by_cases hks : k = session
    · exact hks ▸ ho (hks ▸ hk)
    · exact (hres k hks).symm.trans hk
  refine ⟨hm, fun k hk => .inl (hv ▸ hk), fun i r h => ⟨(hrec i r h.kind).mp h.record, h.kind,
    hopen _ h.opened⟩, fun i r h hr => ?_, hopen, fun k hne hk => (hres k hne).trans hk, hw,
    fun hs i k hi hkey hr => hs i k (by rw [key?, ← hk]; exact hkey) ((hres _ hi).symm.trans hr)⟩
  obtain ⟨e, he, htrue⟩ := hr i rfl
  cases ((hrec i r h.kind).mpr h.record).symm.trans he
  cases htrue

/-- Only worklist and tasks change. -/
theorem quiet (hm : Moves g s t) (hv : t.visited = s.visited) (hk : t.keys = s.keys)
    (hr : t.revisits = s.revisits) (hs : t.sessions = s.sessions) : s.Stretch g session t := by
  have hsession (i : SessionId) : t.session? i = s.session? i := by rw [session?, hs, session?]
  have hresult (k : Option SessionId) : t.result? k = s.result? k := by
    cases k with
    | none => rfl
    | some i => rw [result?, hsession, result?]
  refine .of_eq hm hv hk (fun i r _ => by rw [record?, hr, record?]) (fun k _ => hresult k)
    (fun ho => (hresult session).symm.trans ho) fun i v hi => ⟨v, (hsession i).trans hi, rfl⟩

theorem refl (s : Search) : s.Stretch g session s := .quiet (.refl s) rfl rfl rfl rfl

/-- Moves before a stretch belong to it, if what they begin is finished in its course. -/
theorem prepend (hm : Moves g s t) (h : t.Stretch g session u)
    (hv : ∀ k ∈ t.visited, k ∈ s.visited ∨ u.Finished g k)
    (ha : ∀ i r, u.Alive i r → t.Alive i r → s.Alive i r)
    (hr : ∀ i r, s.Alive i r → t.Alive i r ∨ u.Served g r.rest) (hk : t.keys = s.keys)
    (hres : ∀ k, t.result? k = s.result? k)
    (hw : ∀ i v, s.session? i = some v → ∃ v', t.session? i = some v' ∧ v'.waiters = v.waiters) :
    s.Stretch g session u where
  moves := hm.trans h.moves
  visited k hk := by
    rcases h.visited k hk with hk | hk
    · exact hv k hk
    · exact .inr hk
  alive i r hi := ha i r hi (h.alive i r hi)
  resumed i r hi hres := by
    rcases hr i r hi with hi | hi
    · exact h.resumed i r hi hres
    · exact hi
  opened k hk := (hres k).symm.trans (h.opened k hk)
  kept k hne hk := h.kept k hne ((hres k).trans hk)
  waiters i v hi := by
    obtain ⟨v', hi', hv'⟩ := hw i v hi
    obtain ⟨v'', hi'', hv''⟩ := h.waiters i v' hi'
    exact ⟨v'', hi'', hv''.trans hv'⟩
  honest hs := h.honest fun i k hi hp =>
    hs i k (by rw [key?, ← hk]; exact hi) ((hres _).symm.trans hp)

end Stretch

/-! ### Records after a move -/

theorem waiters_modifySession {m : SessionId} {φ : Session → Session}
    (hφ : ∀ v, (φ v).waiters = v.waiters) {i : SessionId} {v : Session}
    (hi : s.session? i = some v) :
    ∃ v', (s.modifySession m φ).session? i = some v' ∧ v'.waiters = v.waiters := by
  rw [session?_modifySession, hi]
  split
  · exact ⟨φ v, rfl, hφ v⟩
  · exact ⟨v, rfl, rfl⟩

theorem waiters_retain (n : Nat) (session : Option SessionId) {i : SessionId} {v : Session}
    (hi : s.session? i = some v) :
    ∃ v', (s.retain n session).session? i = some v' ∧ v'.waiters = v.waiters := by
  cases session with
  | none => exact ⟨v, hi, rfl⟩
  | some m => exact waiters_modifySession (by intro; rfl) hi

theorem waiters_release (m : SessionId) {i : SessionId} {v : Session} (hi : s.session? i = some v) :
    ∃ v', (s.release m).session? i = some v' ∧ v'.waiters = v.waiters :=
  waiters_modifySession (by intro; rfl) hi

theorem waiters_complete (m : SessionId) (result : SessionResult) {i : SessionId} {v : Session}
    (hi : s.session? i = some v) :
    ∃ v', (s.complete m result).session? i = some v' ∧ v'.waiters = v.waiters :=
  waiters_modifySession (s := s) (φ := fun t => { t with result }) (by intro; rfl) hi

theorem result?_openSession_eq_some (hv : s.sessions.length = s.keys.length) {root : Job}
    {w : RevisitId} {k : Option SessionId} {r : SessionResult} :
    (s.openSession root w).result? k = some r ↔
      s.result? k = some r ∨ (k = some s.nextSession ∧ r = .pending) := by
  cases k with
  | none =>
    rw [result?, result?]
    simp
  | some i =>
    have hi : some i = some s.nextSession ↔ i.index = s.sessions.length + 1 := by
      cases i
      simp [nextSession, hv]
    have hsession (v : Session) : (s.openSession root w).session? i = some v ↔
        s.session? i = some v ∨ (i.index = s.sessions.length + 1 ∧
          v = ⟨.pending, Deque.empty.pushBack w, 1, none⟩) :=
      Numbered.get?_concat_eq_some
    rw [result?, result?, Option.map_eq_some_iff, Option.map_eq_some_iff, hi]
    constructor
    · rintro ⟨v, hv, rfl⟩
      rcases (hsession v).mp hv with hv | ⟨hi, rfl⟩
      · exact .inl ⟨v, hv, rfl⟩
      · exact .inr ⟨hi, rfl⟩
    · rintro (⟨v, hv, rfl⟩ | ⟨hi, rfl⟩)
      · exact ⟨v, (hsession v).mpr (.inl hv), rfl⟩
      · exact ⟨_, (hsession _).mpr (.inr ⟨hi, rfl⟩), rfl⟩

theorem key?_openSession {root : Job} {w : RevisitId} {i : SessionId} {k : SessionKey} :
    (s.openSession root w).key? i = some k ↔
      s.key? i = some k ∨ (i = s.nextSession ∧ k = root.sessionKey) := by
  have hi : i = s.nextSession ↔ i.index = s.keys.length + 1 := by cases i; simp [nextSession]
  rw [key?, openSession, Numbered.get?_concat_eq_some, key?, hi]

theorem alive_markResumed {i i' : RevisitId} {r : Revisit} {ts : List Task} :
    ((s.markResumed i).withTasks ts).Alive i' r ↔ s.Alive i' r ∧ i' ≠ i := by
  have hrec : (s.markResumed i).record? i' = some ⟨r, false⟩ ↔
      s.record? i' = some ⟨r, false⟩ ∧ i' ≠ i := by
    rw [record?_markResumed]
    split <;> simp [*]
  constructor
  · rintro ⟨h, hkind, hopen⟩
    exact ⟨⟨(hrec.mp h).1, hkind, hopen⟩, (hrec.mp h).2⟩
  · rintro ⟨⟨h, hkind, hopen⟩, hne⟩
    exact ⟨hrec.mpr ⟨h, hne⟩, hkind, hopen⟩

theorem resumed_markResumed {i : RevisitId} {e : RevisitEntry} (h : s.record? i = some e)
    (ts : List Task) : ((s.markResumed i).withTasks ts).Resumed (some i) := by
  intro k hk
  obtain rfl := Option.some.inj hk
  exact ⟨{ e with resumed := true }, (s.record?_markResumed i i).trans (by simp [h]), rfl⟩

theorem Stretch.push {k : Option SessionId} {jobs : List Job} {ts : List Task}
    (hm : Move g s ((s.push k jobs).withTasks ts)) :
    s.Stretch g session ((s.push k jobs).withTasks ts) := by
  have hres (i : Option SessionId) := s.result?_push k jobs i
  refine .of_eq (.single hm) (visited_retain _ _ _) (keys_retain _ _ _) (fun i r _ => ?_)
    (fun i _ => hres i) (fun ho => (hres session).symm.trans ho) fun i v hi => waiters_retain _ _ hi
  rw [record?, show ((s.push k jobs).withTasks ts).revisits = s.revisits from revisits_retain _ _ _,
    record?]

/-- A revisit that waits for a session is not alive. -/
theorem Stretch.suspend {r : Revisit} {ts : List Task} (hr : r.precondition.kind ≠ .required)
    (hm : Move g s ((s.suspend r).withTasks ts)) :
    s.Stretch g session ((s.suspend r).withTasks ts) := by
  refine .of_eq (.single hm) rfl rfl (fun i r' hr' => ?_) (fun _ _ => rfl) id
    fun i v hi => ⟨v, hi, rfl⟩
  refine (record?_suspend (s := s) (r := r)).trans (or_iff_left ?_)
  rintro ⟨-, he⟩
  cases he
  exact hr hr'

/-! ### Ready for a stretch -/

/-- Work for the session, with the link, can start. No other search of a session is below it, and
the revisits that are alive were suspended on the way, one inside the other. -/
structure Poised (g : Kripke) (fs : List Formula) (session : Option SessionId)
    (link : Option RevisitId) (s : Search) : Prop where
  course : ∃ past, Course g .depthFirst fs past s
  resolved : s.resolved = []
  opened : s.Open session
  honest : s.Honest g
  least : ∀ i k root, s.Open (some i) → s.key? i = some k →
    s.scope? (current fs) session = some root → root.1.size ≤ k.formula.size
  cleared : ∀ i r, s.Alive i r → s.Cleared g r.rest
  chain : ∀ i r, s.Alive i r → r.session = session → i.index ≤ chainBound link
  nested : ∀ i r i' r', s.Alive i r → s.Alive i' r' → r.session = r'.session →
    i.index < i'.index → i.index ≤ chainBound r'.parent

theorem Cleared.stretch {x : Work} (h : s.Cleared g x) (hs : s.Stretch g session t) :
    t.Cleared g x := by
  cases x with
  | job | todo => exact Clear.mono h hs.moves.extends fun k hk _ _ => hs.visited k hk
  | done | fail | outcome => trivial

namespace Poised

variable {link : Option RevisitId}

theorem valid (h : s.Poised g fs session link) : s.Valid g := by
  obtain ⟨past, hc⟩ := h.course
  exact hc.valid_accounts.1

/-- After a stretch the next one can start. -/
theorem stretch (h : s.Poised g fs session link) (hs : s.Stretch g session t)
    (ho : t.Open session) (hr : t.resolved = []) : t.Poised g fs session link where
  course := h.course.imp fun _ hc => hc.moves hs.moves
  resolved := hr
  opened := ho
  honest := (hs.honest h.honest).honest ho
  least i k root hi hk hroot := by
    have hi' := hs.opened _ hi
    obtain ⟨k', hk'⟩ := h.valid.key?_of_result? (i := i) (by rw [hi']; simp)
    obtain rfl := Option.some.inj (hk.symm.trans (hs.moves.extends.key i k' hk'))
    obtain ⟨root', hroot'⟩ : ∃ root', s.scope? (current fs) session = some root' := by
      cases session with
      | none => exact ⟨_, rfl⟩
      | some m =>
        obtain ⟨k', hk'⟩ := h.valid.key?_of_result? (i := m) (by rw [h.opened]; simp)
        exact ⟨_, by rw [scope?, hk']; rfl⟩
    obtain rfl := Option.some.inj (hroot.symm.trans (hs.moves.extends.scope? hroot'))
    exact h.least i k root hi' hk' hroot'
  cleared i r hr := (h.cleared i r (hs.alive i r hr)).stretch hs
  chain i r hr := h.chain i r (hs.alive i r hr)
  nested i r i' r' hr hr' := h.nested i r i' r' (hs.alive i r hr) (hs.alive i' r' hr')

/-- Moves that change no result lead on, if the revisits that are alive are still found so. -/
theorem advance {link' : Option RevisitId} (h : s.Poised g fs session link) (hm : Moves g s t)
    (hr : t.resolved = []) (hk : t.keys = s.keys) (hres : ∀ k, t.result? k = s.result? k)
    (hcleared : ∀ i r, t.Alive i r → t.Cleared g r.rest)
    (hchain : ∀ i r, t.Alive i r → r.session = session → i.index ≤ chainBound link')
    (hnested : ∀ i r i' r', t.Alive i r → t.Alive i' r' → r.session = r'.session →
      i.index < i'.index → i.index ≤ chainBound r'.parent) :
    t.Poised g fs session link' := by
  have hkey (i : SessionId) : t.key? i = s.key? i := by rw [key?, hk, key?]
  refine ⟨h.course.imp fun _ hc => hc.moves hm, hr, (hres _).trans h.opened,
    fun i k hi hp => h.honest i k ((hkey i).symm.trans hi) ((hres _).symm.trans hp),
    fun i k root hi hk hroot => ?_, hcleared, hchain, hnested⟩
  have hscope : t.scope? (current fs) session = s.scope? (current fs) session := by
    cases session with
    | none => rfl
    | some m => rw [scope?, hkey, scope?]
  exact h.least i k root ((hres _).symm.trans hi) ((hkey i).symm.trans hk) (hscope.symm.trans hroot)

theorem chainBound_parent_lt (h : s.Poised g fs session link) {i : RevisitId} {r : Revisit}
    (hi : s.Alive i r) : chainBound r.parent < i.index := by
  cases hp : r.parent with
  | none => exact Numbered.pos_of_get? hi.record
  | some p => exact (h.valid.revisits i _ hi.record).2 p hp

/-- When no task is left, the session has a job on the worklist, being on the smallest formula. -/
theorem exists_job {i : SessionId} (h : s.Poised g fs (some i) link) (ht : s.tasks = []) :
    ∃ j ∈ s.queue, j.session = some i := by
  obtain ⟨past, hc⟩ := h.course
  obtain ⟨hv, ha⟩ := hc.valid_accounts
  obtain ⟨k, hk⟩ := hv.key?_of_result? (i := i) (by rw [h.opened]; simp)
  refine hc.inScope.exists_job_of_open hv ha ht h.resolved h.opened hk fun m k' hm hk' => ?_
  exact h.least m k' _ hm hk' (by rw [scope?, hk]; rfl)

/-- The visit of a job is none of those that revisits which are alive will find. -/
theorem visit {j : Job} {ts : List Task} (h : s.Poised g fs j.session j.link)
    (hm : Move g s { s with visited := s.visited ++ [j.visitKey], tasks := ts }) :
    Poised g fs j.session j.link
      { s with visited := s.visited ++ [j.visitKey], tasks := ts } := by
  have halive (i : RevisitId) (r : Revisit)
      (hi : Alive { s with visited := s.visited ++ [j.visitKey], tasks := ts } i r) : s.Alive i r :=
    ⟨hi.record, hi.kind, hi.opened⟩
  refine h.advance (.single hm) h.resolved rfl (fun _ => rfl) (fun i r hi => ?_)
    (fun i r hi => h.chain i r (halive i r hi))
    fun i r i' r' hi hi' => h.nested i r i' r' (halive i r hi) (halive i' r' hi')
  refine Clear.mono (h.cleared i r (halive i r hi)) hm.extends fun k hk hs hl => ?_
  rcases List.mem_append.mp hk with hk | hk
  · exact .inl hk
  · obtain rfl := List.mem_singleton.mp hk
    have hlink : j.link = r.parent := hl
    have hle := h.chain i r (halive i r hi) hs.symm
    have hlt := h.chainBound_parent_lt (halive i r hi)
    rw [hlink] at hle
    omega

/-- A revisit that is resumed leaves the others as they are. -/
theorem resume {i : RevisitId} {r : Revisit} {ts : List Task} (h : s.Poised g fs session (some i))
    (hi : s.Alive i r) (hs : r.session = session)
    (hm : Move g s ((s.markResumed i).withTasks ts)) :
    ((s.markResumed i).withTasks ts).Poised g fs session r.parent := by
  refine h.advance (.single hm) h.resolved rfl (fun _ => rfl) (fun i' r' h' => ?_)
    (fun i' r' h' hs' => ?_) fun i₁ r₁ i₂ r₂ h₁ h₂ =>
      h.nested i₁ r₁ i₂ r₂ (alive_markResumed.mp h₁).1 (alive_markResumed.mp h₂).1
  · exact Clear.mono (h.cleared i' r' (alive_markResumed.mp h').1) hm.extends
      fun k hk _ _ => .inl hk
  · obtain ⟨ha, hne⟩ := alive_markResumed.mp h'
    refine h.nested i' r' i r ha hi (hs'.trans hs.symm) (lt_of_le_of_ne (h.chain i' r' ha hs') ?_)
    cases i
    cases i'
    simpa using hne

end Poised

section Revisits

variable {c : Context} {link : Option RevisitId} {o : Obligation} {p : Precondition} {ts : List Task}

/-! ### A requirement inside -/

/-- The precondition is to be checked, and the obligation is linked to it. -/
def required (s : Search) (c : Context) (link : Option RevisitId) (o : Obligation)
    (p : Precondition) (ts : List Task) : Search :=
  ((s.suspend ⟨c, o, p, link⟩).push c.session [c.demand p.formula s.nextRevisit]).withTasks ts

theorem result?_required (k : Option SessionId) :
    (s.required c link o p ts).result? k = s.result? k := result?_push _ _ _ _

theorem keys_required : (s.required c link o p ts).keys = s.keys := keys_retain _ _ _

theorem visited_required : (s.required c link o p ts).visited = s.visited := visited_retain _ _ _

theorem waiters_required {i : SessionId} {v : Session} (hi : s.session? i = some v) :
    ∃ v', (s.required c link o p ts).session? i = some v' ∧ v'.waiters = v.waiters :=
  waiters_retain _ c.session (s := s.suspend ⟨c, o, p, link⟩) hi

theorem alive_required (hk : p.kind = .required) (ho : s.Open c.session) {i : RevisitId}
    {r : Revisit} : (s.required c link o p ts).Alive i r ↔
      s.Alive i r ∨ (i = s.nextRevisit ∧ r = ⟨c, o, p, link⟩) := by
  have hrec : (s.required c link o p ts).record? i = some ⟨r, false⟩ ↔
      s.record? i = some ⟨r, false⟩ ∨ (i = s.nextRevisit ∧ r = ⟨c, o, p, link⟩) := by
    rw [record?, show (s.required c link o p ts).revisits = _ from revisits_retain _ _ _]
    refine (record?_suspend (s := s)).trans (or_congr_right (and_congr_right fun _ => ?_))
    simp
  constructor
  · rintro ⟨h, hkind, hopen⟩
    exact (hrec.mp h).imp_left fun h => ⟨h, hkind, (result?_required _).symm.trans hopen⟩
  · rintro (⟨h, hkind, hopen⟩ | ⟨rfl, rfl⟩)
    · exact ⟨hrec.mpr (.inl h), hkind, (result?_required _).trans hopen⟩
    · exact ⟨hrec.mpr (.inr ⟨rfl, rfl⟩), hk, (result?_required _).trans ho⟩

/-- Work that is linked to the new revisit goes inside the revisits that are alive. -/
theorem Poised.require (h : s.Poised g fs c.session link)
    (hcl : s.Cleared g (.todo c link (.revisit o p))) (hk : p.kind = .required)
    (hm : Move g s (s.required c link o p ts)) :
    (s.required c link o p ts).Poised g fs c.session (some s.nextRevisit) := by
  have hlt {i : RevisitId} {r : Revisit} (hi : s.Alive i r) : i.index < s.nextRevisit.index :=
    Nat.lt_succ_of_le (Numbered.le_of_get? hi.record)
  refine h.advance (.single hm) ((resolved_retain _ _ _).trans h.resolved) keys_required
    result?_required (fun i r hi => ?_) (fun i r hi _ => ?_) fun i r i' r' hi hi' hs hii => ?_
  · rcases (alive_required hk h.opened).mp hi with hi | ⟨-, rfl⟩
    · exact Clear.mono (h.cleared i r hi) hm.extends fun k hk _ _ => .inl (visited_required ▸ hk)
    · exact Clear.mono hcl hm.extends fun k hk _ _ => .inl (visited_required ▸ hk)
  · rcases (alive_required hk h.opened).mp hi with hi | ⟨rfl, -⟩
    · exact Nat.le_of_lt (hlt hi)
    · exact Nat.le_refl _
  · rcases (alive_required hk h.opened).mp hi with hi | ⟨rfl, -⟩ <;>
      rcases (alive_required hk h.opened).mp hi' with hi' | ⟨rfl, rfl⟩
    · exact h.nested i r i' r' hi hi' hs hii
    · exact h.chain i r hi hs
    · exact absurd hii (Nat.lt_asymm (hlt hi'))
    · exact absurd hii (Nat.lt_irrefl _)

/-- No visit has the new link before, so those that have it are finished after. -/
theorem Stretch.finished_required {k : VisitKey} (hc : Course g order fs past s)
    (h : (s.required c link o p ts).Stretch g session t) (hk : k ∈ t.visited)
    (hl : k.link = some s.nextRevisit) : t.Finished g k := by
  refine (h.visited k hk).resolve_left fun hk => ?_
  exact (hc.visited_known (visited_required ▸ hk)).2 _ hl s.record?_nextRevisit

/-! ### A session inside -/

/-- A session is opened for the precondition, and the obligation waits for it. -/
def inquired (s : Search) (c : Context) (link : Option RevisitId) (o : Obligation)
    (p : Precondition) (ts : List Task) : Search :=
  (((s.suspend ⟨c, o, p, link⟩).openSession (c.inquiry p.formula) s.nextRevisit).retain 1
    c.session).withTasks ts

theorem result?_inquired (hv : s.Valid g) {k : Option SessionId} {r : SessionResult} :
    (s.inquired c link o p ts).result? k = some r ↔
      s.result? k = some r ∨ (k = some s.nextSession ∧ r = .pending) := by
  rw [show (s.inquired c link o p ts).result? k = _ from result?_retain _ _ _ _]
  exact result?_openSession_eq_some (s := s.suspend ⟨c, o, p, link⟩) hv.keys

theorem not_open_nextSession (hv : s.Valid g) : s.result? (some s.nextSession) = none := by
  rw [result?, hv.session?_nextSession]
  rfl

theorem open_inquired (hv : s.Valid g) {k : Option SessionId} :
    (s.inquired c link o p ts).Open k ↔ s.Open k ∨ k = some s.nextSession := by
  rw [Open, result?_inquired hv]
  simp [Open]

theorem key?_inquired {i : SessionId} {k : SessionKey} :
    (s.inquired c link o p ts).key? i = some k ↔
      s.key? i = some k ∨ (i = s.nextSession ∧ k = (c.inquiry p.formula).sessionKey) := by
  rw [key?, show (s.inquired c link o p ts).keys = _ from keys_retain _ _ _]
  exact key?_openSession (s := s.suspend ⟨c, o, p, link⟩)

theorem record?_inquired {i : RevisitId} {e : RevisitEntry} :
    (s.inquired c link o p ts).record? i = some e ↔
      s.record? i = some e ∨ (i = s.nextRevisit ∧ e = ⟨⟨c, o, p, link⟩, false⟩) := by
  rw [record?, show (s.inquired c link o p ts).revisits = _ from revisits_retain _ _ _]
  exact record?_suspend

theorem visited_inquired : (s.inquired c link o p ts).visited = s.visited := visited_retain _ _ _

theorem queue_inquired : (s.inquired c link o p ts).queue =
    s.queue ++ [{ c.inquiry p.formula with session := some s.nextSession }] := queue_retain _ _ _

theorem waiters_inquired {i : SessionId} {v : Session} (hi : s.session? i = some v) :
    ∃ v', (s.inquired c link o p ts).session? i = some v' ∧ v'.waiters = v.waiters :=
  waiters_retain 1 c.session (session?_openSession (s := s.suspend ⟨c, o, p, link⟩) hi _ _)

/-- The obligation is outstanding for its own session. -/
theorem work_inquired {i : SessionId} (hi : c.session = some i) :
    (s.inquired c link o p ts).work i ≠ 0 := by
  have hmem : s.nextRevisit ∈ (s.inquired c link o p ts).parked := by
    rw [show (s.inquired c link o p ts).parked = _ from parked_retain _ _ _, parked_openSession]
    exact List.mem_append_right _ List.mem_cons_self
  have he : (s.suspend ⟨c, o, p, link⟩).Extends (s.inquired c link o p ts) :=
    ((extends_openSession _ _ _).trans (extends_retain _ _ _)).withTasks _
  have hpos : 0 < (s.inquired c link o p ts).parked.countP
      ((s.inquired c link o p ts).owner? · = some i) :=
    List.countP_pos_iff.mpr ⟨_, hmem, decide_eq_true ((owner?_nextRevisit he).trans hi)⟩
  rw [work]
  omega

/-- The obligation is the only one that waits for the session. -/
theorem waiters_nextSession (hv : s.Valid g) :
    ∃ v, (s.inquired c link o p ts).session? s.nextSession = some v ∧
      v.waiters = Deque.empty.pushBack s.nextRevisit := by
  refine waiters_retain 1 c.session (v := ⟨.pending, Deque.empty.pushBack s.nextRevisit, 1, none⟩) ?_
  rw [session?, nextSession, ← hv.keys]
  exact Numbered.get?_concat_self _ _

theorem alive_inquired (hv : s.Valid g) (hk : p.kind ≠ .required) {i : RevisitId} {r : Revisit} :
    (s.inquired c link o p ts).Alive i r ↔ s.Alive i r := by
  constructor
  · rintro ⟨hrec, hkind, hopen⟩
    rcases record?_inquired.mp hrec with hrec | ⟨-, he⟩
    · refine ⟨hrec, hkind, ((open_inquired hv).mp hopen).resolve_right fun hs => ?_⟩
      have hknown := (hv.revisits i _ hrec).1.session
      rw [hs] at hknown
      exact hknown (not_open_nextSession hv)
    · cases he
      exact absurd hkind hk
  · rintro ⟨hrec, hkind, hopen⟩
    exact ⟨record?_inquired.mpr (.inl hrec), hkind, (open_inquired hv).mpr (.inl hopen)⟩

theorem honest_inquired (hv : s.Valid g) (hs : s.Honest g) :
    (s.inquired c link o p ts).Honest g := by
  intro i k hk hr
  rcases (result?_inquired hv).mp hr with hr | ⟨-, hr⟩
  · rcases key?_inquired.mp hk with hk | ⟨rfl, -⟩
    · exact hs i k hk hr
    · cases (not_open_nextSession hv).symm.trans hr
  · cases hr

/-- The new session is on a smaller formula than those that are open. -/
theorem Poised.inquire {root : Formula × Window} (h : s.Poised g fs c.session link)
    (hroot : s.scope? (current fs) c.session = some root) (hsize : p.formula.size < root.1.size)
    (hk : p.kind ≠ .required) (hm : Move g s (s.inquired c link o p ts)) :
    (s.inquired c link o p ts).Poised g fs (some s.nextSession) none where
  course := h.course.imp fun _ hc => hc.move hm
  resolved := (resolved_retain _ _ _).trans h.resolved
  opened := (open_inquired h.valid).mpr (.inr rfl)
  honest := honest_inquired h.valid h.honest
  least i k root' hi hkey hroot' := by
    rw [scope?, key?_inquired.mpr (.inr ⟨rfl, rfl⟩)] at hroot'
    cases hroot'
    rcases key?_inquired.mp hkey with hkey | ⟨-, rfl⟩
    · refine Nat.le_of_lt (Nat.lt_of_lt_of_le hsize (h.least i k root ?_ hkey hroot))
      refine ((open_inquired h.valid).mp hi).resolve_right fun hnew => ?_
      obtain ⟨v, hv⟩ := h.valid.session?_of_key? hkey
      rw [Option.some.inj hnew, h.valid.session?_nextSession] at hv
      cases hv
    · exact Nat.le_refl _
  cleared i r hi := by
    refine Clear.mono (h.cleared i r ((alive_inquired h.valid hk).mp hi)) hm.extends ?_
    exact fun k hk _ _ => .inl (visited_inquired ▸ hk)
  chain i r hi hs := by
    have hopen := ((alive_inquired h.valid hk).mp hi).opened
    rw [hs] at hopen
    cases (not_open_nextSession h.valid).symm.trans hopen
  nested i r i' r' hi hi' := h.nested i r i' r' ((alive_inquired h.valid hk).mp hi)
    ((alive_inquired h.valid hk).mp hi')

/-- No visit is for the new session before, so those that are for it are finished after. -/
theorem Stretch.finished_inquired {k : VisitKey} (hc : Course g order fs past s)
    (h : (s.inquired c link o p ts).Stretch g session t) (hk : k ∈ t.visited)
    (hs : k.session = some s.nextSession) : t.Finished g k := by
  refine (h.visited k hk).resolve_left fun hk => ?_
  have hknown := (hc.visited_known (visited_inquired ▸ hk)).1
  rw [hs] at hknown
  exact hknown (not_open_nextSession hc.valid_accounts.1)

/-- If the session passes, its formula holds. -/
theorem Stretch.honest_inquired (hc : Course g order fs past s) (hh : s.Honest g)
    (h : (s.inquired c link o p ts).Stretch g (some s.nextSession) t)
    (hserved : t.Served g (.job { c.inquiry p.formula with session := some s.nextSession })) :
    t.Honest g := by
  have hkey : t.key? s.nextSession = some (c.inquiry p.formula).sessionKey :=
    h.moves.extends.key _ _ (key?_inquired.mpr (.inr ⟨rfl, rfl⟩))
  intro i k hk hpass
  by_cases hi : i = s.nextSession
  · subst hi
    obtain rfl := Option.some.inj (hkey.symm.trans hk)
    have hfail : ¬ t.Failed (some s.nextSession) := fun ⟨x, hx⟩ => by cases hpass.symm.trans hx
    obtain ⟨-, hmem⟩ := hserved.resolve_left hfail
    have hcycle := Context.inCycle_of_history_eq
      (c := { (c.inquiry p.formula).toContext with session := some s.nextSession }) rfl
    exact holds_of_finished hmem hcycle (fun k hk _ _ hs => h.finished_inquired hc hk hs) hfail
  · exact h.honest (Search.honest_inquired hc.valid_accounts.1 hh) i k (by simpa using hi) hk hpass

/-- Once the session has its result and the obligation was told, nothing is left of the session. -/
theorem Stretch.of_session (hv : s.Valid g) (hk : p.kind ≠ .required)
    (hm : Move g s (s.inquired c link o p ts))
    (hu : (s.inquired c link o p ts).Stretch g (some s.nextSession) u)
    (hclosed : ¬ u.Open (some s.nextSession)) (hhonest : s.Honest g → u.Honest g)
    (hut : Moves g u t) (hvis : t.visited = u.visited) (hrev : t.revisits = u.revisits)
    (hkeys : t.keys = u.keys) (hres : ∀ k, t.result? k = u.result? k)
    (hses : ∀ i, i ≠ s.nextSession → t.session? i = u.session? i) : s.Stretch g c.session t where
  moves := (Moves.single hm).trans (hu.moves.trans hut)
  visited k hk := by
    rw [hvis] at hk
    exact (hu.visited k hk).imp (fun hk => visited_inquired ▸ hk) (·.extends hut.extends)
  alive i r hi := by
    have hi' : u.Alive i r :=
      ⟨by rw [record?, ← hrev]; exact hi.record, hi.kind, (hres _).symm.trans hi.opened⟩
    exact (alive_inquired hv hk).mp (hu.alive i r hi')
  resumed i r hi hr := by
    have hr' : u.Resumed (some i) := fun m hm => by rw [record?, ← hrev]; exact hr m hm
    exact (hu.resumed i r ((alive_inquired hv hk).mpr hi) hr').extends hut.extends
  opened k hk := by
    have hk' : u.Open k := (hres k).symm.trans hk
    refine ((open_inquired hv).mp (hu.opened k hk')).resolve_right ?_
    rintro rfl
    exact hclosed hk'
  kept k _ hk := by
    refine (hres k).trans (hu.kept k ?_ ((open_inquired hv).mpr (.inl hk)))
    rintro rfl
    cases (not_open_nextSession hv).symm.trans hk
  waiters i v hi := by
    obtain ⟨v', hi', hv'⟩ : ∃ v', (s.inquired c link o p ts).session? i = some v' ∧
      v'.waiters = v.waiters := waiters_inquired hi
    obtain ⟨v'', hi'', hv''⟩ := hu.waiters i v' hi'
    refine ⟨v'', (hses i ?_).trans hi'', hv''.trans hv'⟩
    rintro rfl
    cases hv.session?_nextSession.symm.trans hi
  honest hs i k _ hi hr :=
    hhonest hs i k (by rw [key?, ← hkeys]; exact hi) ((hres _).symm.trans hr)

end Revisits

/-- The one that waits for a session is told its result. -/
theorem exists_told {i : SessionId} {v : Session} {w : RevisitId} {e : RevisitEntry}
    (ht : s.tasks = []) (hr : s.resolved = [i]) (hi : s.session? i = some v)
    (hw : v.waiters.toList = [w]) (hres : v.result ≠ .pending) (hrec : s.record? w = some e)
    (ho : s.Open e.revisit.session) :
    ∃ finding t, Finding.ofResult? v.result = some finding ∧ Moves g s t ∧
      t.tasks = (e.revisit.precondition.react e.revisit.toContext finding).tasks
        (chainBound e.revisit.parent) e.revisit.toContext e.revisit.parent e.revisit.resume ++
          [.release e.revisit.session] ∧
      t.queue = s.queue ∧ t.resolved = [] ∧ t.visited = s.visited ∧ t.revisits = s.revisits ∧
      t.keys = s.keys ∧ (∀ k, t.result? k = s.result? k) ∧
      ∀ m, m ≠ i → t.session? m = s.session? m := by
  obtain ⟨finding, hf⟩ : ∃ finding, Finding.ofResult? v.result = some finding := by
    cases hv : v.result with
    | pending => exact absurd hv hres
    | pass | fail | exceeded => exact ⟨_, rfl⟩
  have hnotify : Move g s _ := .notify ht hr hi
  rw [hw] at hnotify
  have hopen : (s.dismiss i).Open e.revisit.session := (s.result?_dismiss i _).trans ho
  refine ⟨finding, _, hf, .step hnotify (.single (.tell rfl hrec hf hopen)), rfl, rfl, rfl, rfl, rfl,
    rfl, fun k => s.result?_dismiss i k, fun m hm => ?_⟩
  exact (s.session?_modifySession i m _).trans (if_neg hm)

end Search

end CostCTL
