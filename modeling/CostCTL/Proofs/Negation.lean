import CostCTL.Proofs.Agenda
import CostCTL.Proofs.Answer
import CostCTL.Proofs.Branch
import CostCTL.Proofs.Nested

/-!
# Negation

A negation is checked by one session on the negated formula. The search in the session goes as the
search for the formula itself would (`Move.nest`), so the two answers are opposite, unless a branch
leaves its window: that is not discharged by the negation.
-/

namespace CostCTL

open Formula

variable {g : Kripke} {s t : Search} {f : Formula} {base : Nat}

/-- Jobs come from work for their session, or are the first of a session. -/
theorem Move.mem_queue (h : Move g s t) {j : Job} (hj : j ∈ t.queue) :
    j ∈ s.queue ∨ (∃ n c link o ts, s.tasks = .execute n c link o :: ts ∧ j.session = c.session) ∨
      j.session = some s.nextSession := by
  have hretain (u : Search) (n : Nat) (session : Option SessionId) :
      (u.retain n session).queue = u.queue := by cases session <;> rfl
  cases h with
  | take _ _ hq => exact .inl (hq.perm.mem_iff.mpr (List.mem_cons_of_mem _ hj))
  | @spawn n c link o ts jobs ht hjobs =>
    rcases List.mem_append.mp hj with hj | hj
    · exact .inl hj
    · exact .inr (.inl ⟨n, c, link, o, ts, ht, Obligation.session_jobs hjobs j hj⟩)
  | @require n c link o p ts ht =>
    rcases List.mem_append.mp hj with hj | hj
    · exact .inl hj
    · rw [List.mem_singleton.mp hj]
      exact .inr (.inl ⟨n, c, link, _, ts, ht, rfl⟩)
  | @inquire n c link o p ts ht =>
    rw [Search.withTasks, hretain] at hj
    rcases List.mem_append.mp hj with hj | hj
    · exact .inl hj
    · rw [List.mem_singleton.mp hj]
      exact .inr (.inr rfl)
  | join =>
    rw [Search.withTasks, hretain] at hj
    exact .inl hj
  | notify | stale | repeated | visit | judge | answerLate | answer | resumeNone | resumeAgain
    | resumeLate | resume | tellLate | tell | exceed | decide | decideLate | releaseNone | release
    | finish => exact .inl hj

/-! ### The requirement's own work -/

/-- The task is not about the requirement's own work. -/
def Task.Apart (s : Search) : Task → Prop
  | .process j => j.session ≠ none
  | .execute _ c _ _ | .resume _ c _ => c.session ≠ none
  | .fail session _ => session ≠ none
  | .release _ => True
  | .tell _ w => s.owner? w ≠ none

/-- Nothing is left of the requirement's own work. -/
structure Search.Over (s : Search) : Prop where
  queue : ∀ j ∈ s.queue, j.session ≠ none
  parked : ∀ w ∈ s.parked, s.owner? w ≠ none
  tasks : ∀ k ∈ s.tasks, k.Apart s

theorem Task.Apart.extends {k : Task} (h : k.Apart s) (hk : k.Valid g s) (he : s.Extends t) :
    k.Apart t := by
  cases k with
  | tell result w =>
    obtain ⟨i, ⟨e, hw, -⟩, -⟩ := hk
    rw [Task.Apart, he.owner?_eq (by simp [hw])]
    exact h
  | process | execute | resume | fail | release => exact h

theorem Reaction.apart {n : Nat} {c : Context} {link : Option RevisitId} {o : Obligation}
    (reaction : Reaction) (hc : c.session ≠ none) : ∀ k ∈ reaction.tasks n c link o, k.Apart s := by
  cases reaction <;> simpa [Reaction.tasks, Task.Apart] using hc

/-- What is over stays over. -/
theorem Move.over (h : Move g s t) (hv : s.Valid g) (hi : s.All base (s.InScope f)) (hs : s.Over) :
    t.Over := by
  have he := h.extends
  have htail {k : Task} {ts : List Task} (ht : s.tasks = k :: ts) : ∀ k' ∈ ts, k'.Apart t :=
    fun k' hk' => (hs.tasks k' (ht ▸ List.mem_cons_of_mem _ hk')).extends (hv.tail ht k' hk') he
  have hhead {k : Task} {ts : List Task} (ht : s.tasks = k :: ts) : k.Apart s :=
    hs.tasks k (ht ▸ List.mem_cons_self)
  have hparked : ∀ w ∈ t.parked, t.owner? w ≠ none := by
    have hold (w : RevisitId) (hw : w ∈ s.parked) : t.owner? w ≠ none := by
      rw [he.owner?_eq (hv.parked_on_record hw)]
      exact hs.parked w hw
    rcases h.parked_cases with hp | ⟨i, u, hu, hp, -⟩ | ⟨n, c, link, o, p, ts, ht, hp, howner⟩
    · rw [hp]
      exact hold
    · exact fun w hw => hold w (hp.mem_iff.mp (List.mem_append_left _ hw))
    · intro w hw
      rcases List.mem_append.mp (hp.mem_iff.mp hw) with hw | hw
      · exact hold w hw
      · rw [List.mem_singleton.mp hw, howner]
        exact hhead ht
  refine ⟨fun j hj => ?_, hparked, ?_⟩
  · rcases h.mem_queue hj with hj | ⟨n, c, link, o, ts, ht, hsession⟩ | hsession
    · exact hs.queue j hj
    · rw [hsession]
      exact hhead ht
    · simp [hsession]
  cases h with
  | notify _ _ hi =>
    intro k hk
    obtain ⟨w, hw, rfl⟩ := List.mem_map.mp hk
    have hmem : w ∈ s.parked := List.mem_flatMap.mpr ⟨_, Numbered.mem_of_get? hi, hw⟩
    rw [Task.Apart, he.owner?_eq (hv.parked_on_record hmem)]
    exact hs.parked w hmem
  | take _ _ hq =>
    refine List.forall_mem_singleton.mpr (hs.queue _ (hq.perm.mem_iff.mpr List.mem_cons_self))
  | stale ht | repeated ht | tellLate ht => exact List.forall_mem_cons.mpr ⟨trivial, htail ht⟩
  | @visit j ts node u ht =>
    have hj : j.session ≠ none := hhead ht
    refine List.forall_mem_append.mpr ⟨?_, List.forall_mem_cons.mpr ⟨trivial, htail ht⟩⟩
    cases u <;> simpa [Unfolding.tasks, Task.Apart] using hj
  | judge ht | answer ht =>
    exact List.forall_mem_append.mpr ⟨Reaction.apart _ (hhead ht), htail ht⟩
  | @resume n c i ts e ht hrec =>
    obtain ⟨e', he', hsession, -⟩ := (hi.head ht _ rfl).2 i rfl
    obtain rfl := Option.some.inj (hrec.symm.trans he')
    refine List.forall_mem_cons.mpr ⟨?_, htail ht⟩
    rw [Task.Apart, hsession]
    exact hhead ht
  | @tell result i ts e finding ht hrec =>
    have howner := hhead ht
    rw [Task.Apart, Search.owner?, hrec] at howner
    exact List.forall_mem_append.mpr ⟨Reaction.apart _ howner,
      List.forall_mem_cons.mpr ⟨trivial, htail ht⟩⟩
  | spawn ht | require ht | inquire ht | join ht | answerLate ht | resumeNone ht | resumeAgain ht
    | resumeLate ht | exceed ht | decide ht | decideLate ht | releaseNone ht | release ht
    | finish ht => exact htail ht

theorem Moves.over {order : PendingOrder} {fs : List Formula} {past : Search} (h : Moves g s t)
    (hc : Course g order fs past s) (hs : s.Over) : t.Over := by
  induction h with
  | refl => exact hs
  | step first _ ih => exact ih (hc.move first) (first.over hc.valid_accounts.1 hc.inScope hs)

/-- The requirement's own work on a negation asks for one session, and fails only by its result. -/
def Search.Denies (i : NodeId) (f : Formula) (s : Search) : Work → Prop
  | .job j => j.session = none → j = .root i (.not f)
  | .todo c link o => c.session = none → c = .start i ∧ link = none ∧
    o = .revisit (.here falsum) ⟨.ignored, f⟩
  | .done c link => c.session = none → link = none
  | .fail none x => ∃ k, s.key? k = some ((Context.start i).inquiry f).sessionKey ∧
    (s.result? (some k) = some .pass ∨ s.result? (some k) = some (.exceeded x))
  | .fail (some _) _ | .outcome .. => True

theorem Search.Denies.of_session {i : NodeId} {c : Context} {link : Option RevisitId} {o : Obligation}
    (hc : c.session ≠ none) (reaction : Reaction) : s.Denies i f (reaction.work c link o) := by
  cases reaction with
  | proceed => exact fun h => absurd h hc
  | met => exact fun h => absurd h hc
  | fail x =>
    obtain ⟨k, hk⟩ := Option.ne_none_iff_exists'.mp hc
    rw [Reaction.work, hk]
    trivial

theorem Search.denies_hands (g : Kripke) (base : Nat) (i : NodeId) (e : Formula)
    (hf : f.isState = false) : Hands g base (InScope e) (Denies i f) where
  mono := by
    intro s t x h hx
    cases x with
    | fail session x =>
      cases session with
      | none =>
        obtain ⟨k, hk, hr⟩ := hx
        refine ⟨k, h.key k _ hk, ?_⟩
        rcases hr with hr | hr
        · obtain ⟨r', hr', heq⟩ := h.result _ _ hr
          exact .inl (heq (by simp) ▸ hr')
        · obtain ⟨r', hr', heq⟩ := h.result _ _ hr
          exact .inr (heq (by simp) ▸ hr')
      | some => trivial
    | job | todo | done => exact hx
    | outcome => trivial
  unfold := by
    intro s j node u _ _ _ h _ hu
    by_cases hj : j.session = none
    · have hnot : (Formula.not f).unfold ((Job.root i (.not f)).position node) =
          .ok (.obligation (.revisit (.here falsum) ⟨.ignored, f⟩)) := by
        unfold Formula.unfold
        rw [show (Formula.not f).isState = false from hf]
        rfl
      rw [h hj] at hu ⊢
      cases hnot.symm.trans hu
      exact fun _ => ⟨rfl, rfl, rfl⟩
    · cases u with
      | pass => exact fun h => absurd h hj
      | fail v =>
        obtain ⟨k, hk⟩ := Option.ne_none_iff_exists'.mp hj
        rw [Unfolding.work, hk]
        trivial
      | obligation o => exact fun h => absurd h hj
  spawn := by
    intro s c link o jobs _ _ _ h hj j hjm hsession
    have hc := (Obligation.session_jobs hj j hjm).symm.trans hsession
    rw [(h hc).2.2] at hj
    cases hj
  judge := by
    intro s c link o p node judgement _ _ h hp _ _
    refine .of_session (fun hc => ?_) _
    cases (h hc).2.2
    cases hf.symm.trans hp
  answer := by
    intro s c link o p k result finding _ _ h _ _ hkey hr _ _ hfinding ho
    by_cases hc : c.session = none
    · obtain ⟨rfl, rfl, heq⟩ := h hc
      cases heq
      cases result with
      | pending => cases hfinding
      | pass =>
        cases hfinding
        exact ⟨k, hkey, .inl hr⟩
      | fail x =>
        cases hfinding
        exact fun _ => rfl
      | exceeded x =>
        cases hfinding
        exact ⟨k, hkey, .inr hr⟩
    · exact .of_session hc _
  require := by
    intro s c link o p _ _ h _ hk hc
    cases (h hc).2.2
    cases hk
  inquire := by
    intro s c link o p _ _ _ _ _ _ hsession
    cases hsession
  resume := by
    intro s c k e _ hp h hrec _ _ _ _ hsession
    obtain ⟨e', he', hs, -⟩ := hp k rfl
    obtain rfl := Option.some.inj (hrec.symm.trans he')
    cases h (hs.symm.trans hsession)
  exceed := by intros; trivial
  settle := by intros; trivial
  pass := by intros; trivial

theorem Course.denies {order : PendingOrder} {i : NodeId} {past : Search}
    (h : Course g order [.not f] past s) (hf : f.universal.isState = false)
    (hi : g.initial.toList = [i]) :
    s.All past.revisits.length (s.Denies i f.universal) := by
  refine h.all (P := fun f s => s.InScope f) (Q := fun _ s => s.Denies i f.universal)
    (fun e _ base => Search.denies_hands g base i e.universal hf) (fun _ hc _ => hc.inScope)
    (fun e he i' hi' s _ => ?_) (fun _ _ _ _ _ _ => trivial)
    fun _ hc _ hs => hc.inScope.parked_of_idle hc.valid_accounts.1 hc.valid_accounts.2 hs
  have hi' : i' ∈ g.initial.toList := hi'
  rw [hi, List.mem_singleton] at hi'
  rw [List.mem_singleton.mp he, hi']
  rfl

/-! ### The session of the negated formula -/

/-- The first revisit is about to make the requirement fail, unless the first session failed. -/
def Search.Awaits (s : Search) : Prop :=
  ⟨1⟩ ∈ s.parked ∨ (∃ r, .tell r ⟨1⟩ ∈ s.tasks) ∨ (∃ x, .fail none x ∈ s.tasks) ∨
    ∃ x, s.result? (some ⟨1⟩) = some (.fail x)

theorem Move.awaits (h : Move g s t) (hv : s.Valid g) {e : RevisitEntry}
    (he : s.record? ⟨1⟩ = some e) (hs : e.revisit.session = none)
    (hk : e.revisit.precondition.kind = .ignored)
    (hkey : s.key? ⟨1⟩ = some (e.revisit.inquiry e.revisit.precondition.formula).sessionKey)
    (ha : s.Awaits) : t.Awaits := by
  have hnone : ¬ s.Settled none := fun ⟨r, hr, hp⟩ => hp (Option.some.inj hr).symm
  rcases ha with hw | ⟨r, hr⟩ | ⟨x, hx⟩ | ⟨x, hx⟩
  · rcases h.parked_cases with hp | ⟨i, u, hu, hp, ht⟩ | ⟨n, c, link, o, p, ts, ht, hp, -⟩
    · exact .inl (by rw [hp]; exact hw)
    · rcases List.mem_append.mp (hp.mem_iff.mpr hw) with hw | hw
      · exact .inl hw
      · exact .inr (.inl ⟨u.result, by rw [ht]; exact List.mem_map_of_mem hw⟩)
    · exact .inl (hp.mem_iff.mpr (List.mem_append_left _ hw))
  · cases hts : s.tasks with
    | nil =>
      rw [hts] at hr
      cases hr
    | cons k ts =>
      rw [hts] at hr
      rcases List.mem_cons.mp hr with rfl | hr
      · obtain ⟨e', he', h⟩ := h.of_tell hts
        obtain rfl := Option.some.inj (he.symm.trans he')
        obtain ⟨i, ⟨e', he', -, -, hkey'⟩, hres, hne⟩ := hv.head hts
        obtain rfl := Option.some.inj (he.symm.trans he')
        cases hv.key?_inj hkey hkey'
        rcases h with ⟨hl, -⟩ | ⟨finding, hfinding, -, rfl⟩
        · rcases hl with rfl | hl
          · exact absurd rfl hne
          · rw [hs] at hl
            exact absurd hl hnone
        · cases r with
          | pending => exact absurd rfl hne
          | pass =>
            cases hfinding
            refine .inr (.inr (.inl ⟨e.revisit.counterexample
              (.holds e.revisit.precondition.formula e.revisit.node), ?_⟩))
            simp [Search.withTasks, Precondition.react, hk, Reaction.tasks, hs]
          | fail x => exact .inr (.inr (.inr ⟨x, hres⟩))
          | exceeded x =>
            cases hfinding
            refine .inr (.inr (.inl ⟨x, ?_⟩))
            simp [Search.withTasks, Precondition.react, Reaction.tasks, hs]
      · exact .inr (.inl ⟨r, h.tail_subset hts hr⟩)
  · cases hts : s.tasks with
    | nil =>
      rw [hts] at hx
      cases hx
    | cons k ts =>
      rw [hts] at hx
      rcases List.mem_cons.mp hx with rfl | hx
      · obtain ⟨i, hi, -⟩ := h.of_fail hts
        cases hi
      · exact .inr (.inr (.inl ⟨x, h.tail_subset hts hx⟩))
  · obtain ⟨r', hr', heq⟩ := h.extends.result _ _ hx
    exact .inr (.inr (.inr ⟨x, by rw [hr', heq (by simp)]⟩))

/-- The session left its window with `x`, so it does not pass. -/
def Session.Exceeds (x : Counterexample) (u : Session) : Prop :=
  u.exceeded = some x ∧ u.result ≠ .pass ∧ ∀ y, u.result = .exceeded y → y = x

theorem Search.session?_modifySession_of {P : Session → Prop} {i : SessionId} {u : Session}
    (hi : s.session? i = some u) (hu : P u) {φ : Session → Session} (hφ : ∀ u, P u → P (φ u))
    (k : SessionId) : ∃ v, (s.modifySession k φ).session? i = some v ∧ P v := by
  rw [session?_modifySession]
  split
  · exact ⟨φ u, by rw [hi]; rfl, hφ u hu⟩
  · exact ⟨u, hi, hu⟩

theorem Move.exceeds (h : Move g s t) {i : SessionId} {x : Counterexample}
    (hs : ∃ u, s.session? i = some u ∧ u.Exceeds x) :
    ∃ v, t.session? i = some v ∧ v.Exceeds x := by
  obtain ⟨u, hi, hu⟩ := hs
  have hretain {u : Session} {s : Search} (hi : s.session? i = some u) (hu : u.Exceeds x) (n : Nat)
      (session : Option SessionId) : ∃ v, (s.retain n session).session? i = some v ∧ v.Exceeds x := by
    cases session with
    | none => exact ⟨u, hi, hu⟩
    | some k => exact Search.session?_modifySession_of hi hu (by intro u hu; exact hu) k
  cases h with
  | @notify k => exact Search.session?_modifySession_of hi hu (by intro u hu; exact hu) k
  | @spawn n c link o ts jobs => exact hretain hi hu jobs.length c.session
  | @require n c => exact hretain (s := s.suspend _) hi hu 1 c.session
  | @inquire n c =>
    exact hretain (Search.session?_openSession (s := s.suspend _) hi _ _) hu 1 c.session
  | @join n c link o p ts k =>
    obtain ⟨v, hv, hvx⟩ := Search.session?_modifySession_of (s := s.suspend ⟨c, o, p, link⟩) hi hu
      (φ := fun t => { t with waiters := t.waiters.pushBack s.nextRevisit }) (fun _ hu => hu) k
    exact hretain hv hvx 1 c.session
  | @exceed k y =>
    refine Search.session?_modifySession_of hi hu (fun u hu => ?_) k
    exact ⟨by simp [hu.1], hu.2⟩
  | @decide k y =>
    refine Search.session?_modifySession_of hi hu (fun u hu => ?_) k
    exact ⟨hu.1, by simp, by simp⟩
  | @release k => exact Search.session?_modifySession_of hi hu (by intro u hu; exact hu) k
  | @finish k ts w _ hw =>
    obtain ⟨v, hv, hvx⟩ := Search.session?_modifySession_of hi hu
      (φ := fun t => { t with outstanding := t.outstanding - 1 }) (fun _ hu => hu) k
    by_cases hk : i = k
    · subst hk
      cases hi.symm.trans hw
      have houtcome : u.outcome = .exceeded x := by rw [Session.outcome, hu.1]; rfl
      refine Search.session?_modifySession_of hv hvx (φ := fun t => { t with result := u.outcome })
        (fun v hv => ⟨hv.1, ?_, ?_⟩) i
      · simp [houtcome]
      · simp [houtcome, eq_comm]
    · refine ⟨v, ?_, hvx⟩
      rw [← hv]
      exact ((s.release k).session?_modifySession k i _).trans (if_neg hk)
  | take | stale | repeated | visit | judge | answerLate | answer | resumeNone | resumeAgain
    | resumeLate | resume | tellLate | tell | decideLate | releaseNone => exact ⟨u, hi, hu⟩

/-! ### The search for a negation -/

/-- The search for the negation once it has asked for its session. -/
def Search.asking (order : PendingOrder) (i : NodeId) (f : Formula) : Search where
  order := order
  queue := [(Job.root i f).nest]
  visited := [(Job.root i (.not f)).visitKey]
  revisits := [⟨⟨.start i, .here falsum, ⟨.ignored, f⟩, none⟩, false⟩]
  keys := [((Context.start i).inquiry f).sessionKey]
  sessions := [⟨.pending, Deque.empty.pushBack ⟨1⟩, 1, none⟩]
  resolved := []
  told := []
  tasks := []

variable {order : PendingOrder} {i : NodeId}

theorem Kripke.exists_node? (hi : g.initial.toList = [i]) : ∃ node, g.node? i = some node := by
  have hlt : i.index < g.size :=
    g.initial_inside i (by rw [SortedSet.mem_iff, hi]; exact List.mem_singleton_self i)
  exact ⟨_, Array.getElem?_eq_getElem hlt⟩

theorem Search.seed_start (hi : g.initial.toList = [i]) (f : Formula) :
    (Search.start order).seed g f =
      { Search.start order with queue := [.root i f] } := by
  rw [seed, hi]
  rfl

theorem Search.takes_singleton {j : Job} (hq : s.queue = [j]) : s.Takes j [] := by
  unfold Takes
  split <;> exact hq

/-- The session is asked for first. -/
theorem moves_asking (hi : g.initial.toList = [i]) (hf : f.isState = false) :
    Moves g ((Search.start order).seed g (.not f)) (.asking order i f) := by
  obtain ⟨node, hnode⟩ := Kripke.exists_node? hi
  have hnot : (Formula.not f).unfold ((Job.root i (.not f)).position node) =
      .ok (.obligation (.revisit (.here falsum) ⟨.ignored, f⟩)) := by
    unfold Formula.unfold
    rw [show (Formula.not f).isState = false from hf]
    rfl
  rw [Search.seed_start hi]
  refine .step (.take rfl rfl (Search.takes_singleton rfl)) ?_
  refine .step (.visit rfl rfl (List.not_mem_nil) hnode hnot) ?_
  refine .step (.inquire rfl hf (by simp) (List.not_mem_nil)) ?_
  exact .step (.releaseNone rfl) (.refl _)

theorem nests_asking (hi : g.initial.toList = [i]) (f : Formula) :
    ((Search.start order).seed g f).Nests f (.asking order i f) := by
  rw [Search.seed_start hi]
  exact {
    order := rfl
    queue := rfl
    visited := fun k _ => by simp [Search.asking, Search.start, VisitKey.nest, Job.visitKey, Job.root, Context.start]
    revisits := ⟨_, rfl⟩
    keys := ⟨_, rfl, rfl⟩
    sessions := ⟨_, [], rfl, rfl, rfl, .nil⟩
    resolved := rfl
    tasks := .nil }

theorem Search.Nests.mem_parked {a b : Search} (hn : a.Nests f b) {w : RevisitId}
    (hw : w ∈ a.parked) : w.nest ∈ b.parked := by
  obtain ⟨u, hu, hw⟩ := List.mem_flatMap.mp hw
  obtain ⟨n, hn'⟩ := Numbered.exists_get?_of_mem hu
  obtain ⟨v, hv, huv⟩ := hn.session (i := ⟨n⟩) hn'
  refine List.mem_flatMap.mpr ⟨v, Numbered.mem_of_get? hv, ?_⟩
  rw [huv.waiters]
  exact List.mem_map_of_mem hw

/-- A revisit of the requirement's own work belongs to the first session inside. -/
theorem Search.Nests.owner? {a b : Search} (hn : a.Nests f b) {w : RevisitId}
    (hw : a.record? w ≠ none) (ho : a.owner? w = none) : b.owner? w.nest = some ⟨1⟩ := by
  obtain ⟨e, he⟩ := Option.ne_none_iff_exists'.mp hw
  have hs : e.revisit.session = none := by rwa [Search.owner?, he] at ho
  rw [Search.owner?, hn.record he]
  simp [RevisitEntry.nest, Revisit.nest, Context.nest, hs, nestSession]

/-- The requirement's failure is the first session's inside. -/
theorem Search.Nests.fail_tasks {a b : Search} (hn : a.Nests f b) {x : Counterexample}
    (hx : a.Halts g (.refuted x)) : ∃ ts, b.tasks = .fail (some ⟨1⟩) x :: ts := by
  cases hx with
  | refuted ht =>
    have htasks := hn.tasks
    rw [ht] at htasks
    obtain ⟨k, ts, hk, -, hb⟩ := List.forall₂_cons_left_iff.mp htasks
    cases hk
    exact ⟨ts, hb⟩

/-- When the first session is finishing, nothing is left of the work that became its own. -/
theorem Search.Nests.over {a b : Search} (hn : a.Nests f b) (hv : a.Valid g)
    (ho : Task.Orderly a.tasks) (hb : b.Accounts) (hfin : b.Finishing) :
    ∃ ts, a.tasks = .release none :: ts ∧ (a.withTasks ts).Over := by
  obtain ⟨ts', u, htb, hu, hone⟩ := hfin
  have htasks := hn.tasks
  rw [htb] at htasks
  obtain ⟨k, ts, hk, hts, hta⟩ := List.forall₂_cons_right_iff.mp htasks
  obtain rfl : k = .release none := by
    generalize hk' : Task.release (some ⟨1⟩) = k' at hk
    cases hk with
    | release session =>
      have hzero := session_ne_zero (hv.head hta : a.result? session ≠ none)
      cases nestSession_inj (i := none) (by simp) hzero (by simpa [nestSession] using hk')
      rfl
    | process | execute | resume | fail | tell => cases hk'
  -- the session's account is down to the task that releases it
  have hbal := hb.balance ⟨1⟩ u hu
  rw [hone, work, owed, htb, List.countP_cons_of_pos (by simp [Task.releases])] at hbal
  have hqueue : b.queue.countP (·.session = some ⟨1⟩) = 0 := by omega
  have hparked : b.parked.countP (b.owner? · = some ⟨1⟩) = 0 := by omega
  have howed : ts'.countP (·.releases b = some ⟨1⟩) = 0 := by omega
  rw [List.countP_eq_zero] at hqueue hparked howed
  refine ⟨ts, hta, fun j hj hsession => ?_, fun w hw howner => ?_, fun k hk => ?_⟩
  · refine hqueue j.nest (by rw [hn.queue]; exact List.mem_map_of_mem hj) ?_
    simp [Job.nest, Context.nest, hsession, nestSession]
  · refine hparked w.nest (hn.mem_parked hw) ?_
    simpa using hn.owner? (hv.parked_on_record hw) howner
  · rw [hta] at ho
    have htell := ho.tail_release k hk
    have hkv := hv.tail hta k hk
    cases k with
    | tell result w =>
      intro howner
      obtain ⟨i, ⟨e, he, -⟩, -⟩ := hkv
      obtain ⟨k', hk', hkk⟩ : ∃ k' ∈ ts', (Task.tell result w).Nests k' := by
        obtain ⟨n, hlt, hget⟩ := List.getElem_of_mem hk
        have hlt' : n < ts'.length := hts.length_eq ▸ hlt
        have hrel := hts.get hlt hlt'
        rw [show ts.get ⟨n, hlt⟩ = .tell result w from hget] at hrel
        exact ⟨ts'[n], List.getElem_mem hlt', hrel⟩
      cases hkk
      exact howed _ hk' (decide_eq_true (hn.owner? (by simp [he]) howner))
    | process | execute | resume | fail | release => cases htell

/-! ### Opposite answers -/

theorem Moves.exceeds (h : Moves g s t) {i : SessionId} {x : Counterexample}
    (hs : ∃ u, s.session? i = some u ∧ u.Exceeds x) : ∃ v, t.session? i = some v ∧ v.Exceeds x := by
  induction h with
  | refl => exact hs
  | step first _ ih => exact ih (first.exceeds hs)

theorem awaits_asking (h : Moves g (.asking order i f) t) (hv : (Search.asking order i f).Valid g) :
    t.Awaits := by
  have main {s t : Search} (h : Moves g s t) (hv : s.Valid g)
      (he : (Search.asking order i f).Extends s) (hs : s.Awaits) : t.Awaits := by
    induction h with
    | refl => exact hs
    | step first _ ih =>
      obtain ⟨b, hb, -⟩ := he.entry ⟨1⟩ _ rfl
      exact ih (first.valid hv) (he.trans first.extends)
        (first.awaits hv hb rfl rfl (he.key ⟨1⟩ _ rfl) hs)
  exact main h hv (.refl _) (.inl (by simp [Search.parked, Search.asking]))

/-- How the searches for a formula and for its negation end. -/
structure Opposite (g : Kripke) (z z' : Search) : Prop where
  holds : z.Idle → ∃ x, z'.Halts g (.refuted x)
  fails : ∀ x, z.Halts g (.refuted x) → x.violation.isBudget = false → z'.Idle
  budget : ∀ x, z.Halts g (.refuted x) → x.violation.isBudget = true →
    z'.Idle ∨ z'.Halts g (.refuted x)

variable {past past' z z' : Search}

/-- The first session, still pending. -/
theorem Search.Nests.first {a b : Search} (hn : a.Nests f b) :
    ∃ u, b.session? ⟨1⟩ = some u ∧ u.result = .pending ∧ u.exceeded = none := by
  obtain ⟨u, vs, hsessions, hpend, hx, -⟩ := hn.sessions
  exact ⟨u, by rw [session?, hsessions]; rfl, hpend, hx⟩

/-- The first session passes if it is finishing before a branch left its window. -/
theorem exists_pass_of_finishing {a b : Search} (hn : a.Nests f b) (hfin : b.Finishing) :
    ∃ b', Move g b b' ∧ b'.result? (some ⟨1⟩) = some .pass := by
  obtain ⟨ts, u, ht, hu, hone⟩ := hfin
  obtain ⟨u', hu', hpend, hx⟩ := hn.first
  obtain rfl := Option.some.inj (hu.symm.trans hu')
  refine ⟨_, .finish ht hu hone hpend, ?_⟩
  have hopen : (b.release ⟨1⟩).Open (some ⟨1⟩) := by
    rw [Search.Open, Search.result?_release, Search.result?, hu, Option.map_some, hpend]
  have hpass : u.outcome = .pass := by
    rw [Session.outcome, hx]
    rfl
  have hresult := Search.result?_complete _ hopen u.outcome (some ⟨1⟩)
  rw [if_pos rfl, hpass] at hresult
  rw [hpass]
  exact hresult

/-- The negation holds once its session failed. -/
theorem exists_fail_of_refuted {a b : Search} (hn : a.Nests f b) {x : Counterexample}
    (hx : a.Halts g (.refuted x)) (hbudget : x.violation.isBudget = false) :
    ∃ b', Move g b b' ∧ b'.result? (some ⟨1⟩) = some (.fail x) := by
  obtain ⟨u, hu, hpend, -⟩ := hn.first
  obtain ⟨ts, ht⟩ := hn.fail_tasks hx
  have hopen : b.Open (some ⟨1⟩) := by rw [Search.Open, Search.result?, hu, Option.map_some, hpend]
  refine ⟨_, .decide ht hbudget hopen, ?_⟩
  have hresult := Search.result?_complete _ hopen (.fail x) (some ⟨1⟩)
  rw [if_pos rfl] at hresult
  exact hresult

theorem exists_exceeds_of_refuted {a b : Search} (hn : a.Nests f b) {x : Counterexample}
    (hx : a.Halts g (.refuted x)) (hbudget : x.violation.isBudget = true) :
    ∃ b', Move g b b' ∧ ∃ u, b'.session? ⟨1⟩ = some u ∧ u.Exceeds x := by
  obtain ⟨u, hu, hpend, hnone⟩ := hn.first
  obtain ⟨ts, ht⟩ := hn.fail_tasks hx
  refine ⟨_, .exceed ht hbudget, { u with exceeded := u.exceeded.or (some x) }, ?_, ?_⟩
  · refine (b.session?_modifySession ⟨1⟩ ⟨1⟩ _).trans ?_
    rw [if_pos rfl, hu]
    rfl
  · exact ⟨by simp [hnone], by simp [hpend], by simp [hpend]⟩

/-- A search that ends with a failure is made inside to its end. -/
theorem Search.Nests.of_refuted {a b : Search} {fs fs' : List Formula} (hn : a.Nests (current fs) b)
    (ha : Course g order fs past a) (hb : Course g order fs' past' b) (hz : Moves g a z)
    {x : Counterexample} (hx : z.Halts g (.refuted x)) :
    ∃ b', Moves g b b' ∧ z.Nests (current fs) b' := by
  rcases hz.nest hn ha hb with h | ⟨a₁, b₁, hm₁, hmz, hmb, hn₁, hfin⟩
  · exact h
  · have ha₁ := ha.moves hm₁
    obtain ⟨ts, hts, hover⟩ := hn₁.over ha₁.valid_accounts.1 ha₁.orderly
      (hb.moves hmb).valid_accounts.2 hfin
    have hrelease : Move g a₁ (a₁.withTasks ts) := .releaseNone hts
    have hover := (Search.Ends.moves (.inr ⟨x, hx⟩) ha₁.valid_accounts.1 (.single hrelease) hmz).over
      (ha₁.move hrelease) hover
    cases hx with
    | refuted ht =>
      have hfail := hover.tasks _ (ht ▸ List.mem_cons_self)
      exact absurd rfl hfail

theorem opposite_of_temporal (hi : g.initial.toList = [i]) (hf : f.universal.isState = false)
    (hz : Course g order [f] past z) (hz' : Course g order [.not f] past' z') (hze' : z'.Ends g) :
    Opposite g z z' := by
  have hmoves := hz.moves_of_singleton
  have hca : Course g order [f] _ ((Search.start order).seed g f.universal) :=
    .seed .start ⟨rfl, rfl, rfl⟩ f
  have hcb : Course g order [.not f] _ ((Search.start order).seed g f.not.universal) :=
    .seed .start ⟨rfl, rfl, rfl⟩ f.not
  have hask : Moves g ((Search.start order).seed g f.not.universal) (.asking order i f.universal) :=
    moves_asking hi hf
  have hcask := hcb.moves hask
  have hn : ((Search.start order).seed g f.universal).Nests (current [f])
    (.asking order i f.universal) := nests_asking hi f.universal
  -- whatever the search for the negation comes to leads to its end
  have hend {b : Search} (hb : Moves g (.asking order i f.universal) b) : Moves g b z' :=
    hze'.moves hcb.valid_accounts.1 (hask.trans hb) hz'.moves_of_singleton
  have hresult {b : Search} {r : SessionResult} (hb : Moves g (.asking order i f.universal) b)
      (hr : b.result? (some ⟨1⟩) = some r) (hp : r ≠ .pending) : z'.result? (some ⟨1⟩) = some r := by
    obtain ⟨r', hr', heq⟩ := (hend hb).extends.result _ _ hr
    rw [hr', heq hp]
  have hrefuted {x : Counterexample} (hx : z'.Halts g (.refuted x)) :
      z'.result? (some ⟨1⟩) = some .pass ∨ z'.result? (some ⟨1⟩) = some (.exceeded x) := by
    have hkey : z'.key? ⟨1⟩ = some ((Context.start i).inquiry f.universal).sessionKey :=
      (hend (.refl _)).extends.key ⟨1⟩ _ rfl
    cases hx with
    | refuted ht =>
      obtain ⟨-, k, hk, hr⟩ := (hz'.denies hf hi).head ht _ rfl
      cases hz'.valid_accounts.1.key?_inj hkey hk
      exact hr
  refine ⟨fun hidle => ?_, fun x hx hbudget => ?_, fun x hx hbudget => ?_⟩
  · rcases hmoves.nest hn hca hcask with ⟨b, hb, hnb⟩ | ⟨a, b, -, -, hb, hnb, hfin⟩
    · obtain ⟨u, hu, hpend, -⟩ := hnb.first
      have hcb := hcask.moves hb
      have hbidle : b.Idle := by
        obtain ⟨ht, hr, hq⟩ := hidle
        refine ⟨?_, by rw [hnb.resolved, hr]; rfl, by rw [hnb.queue, hq]; rfl⟩
        have htasks := hnb.tasks
        rw [ht] at htasks
        exact List.forall₂_nil_left_iff.mp htasks
      exact absurd hpend (hcb.inScope.settled_of_idle hcb.valid_accounts.1 hcb.valid_accounts.2
        hbidle hu)
    · obtain ⟨b', hm, hpass⟩ := exists_pass_of_finishing hnb hfin
      have hpass := hresult (hb.trans (.single hm)) hpass (by simp)
      refine hze'.resolve_left fun hidle' => ?_
      have hparked := hz'.inScope.parked_of_idle hz'.valid_accounts.1 hz'.valid_accounts.2 hidle'
      rcases awaits_asking (hend (.refl _)) hcask.valid_accounts.1 with hw | ⟨r, hr⟩ | ⟨x, hx⟩ |
        ⟨x, hx⟩
      · rw [hparked] at hw
        cases hw
      · rw [hidle'.1] at hr
        cases hr
      · rw [hidle'.1] at hx
        cases hx
      · cases hpass.symm.trans hx
  · obtain ⟨b, hb, hnb⟩ := hn.of_refuted hca hcask hmoves hx
    obtain ⟨b', hm, hfail⟩ := exists_fail_of_refuted hnb hx hbudget
    have hfail := hresult (hb.trans (.single hm)) hfail (by simp)
    refine hze'.resolve_right fun ⟨y, hy⟩ => ?_
    rcases hrefuted hy with h | h <;> cases hfail.symm.trans h
  · obtain ⟨b, hb, hnb⟩ := hn.of_refuted hca hcask hmoves hx
    obtain ⟨b', hm, hexceeds⟩ := exists_exceeds_of_refuted hnb hx hbudget
    obtain ⟨v, hv, hvx⟩ := (hend (hb.trans (.single hm))).exceeds hexceeds
    refine hze'.imp_right fun ⟨y, hy⟩ => ?_
    rcases hrefuted hy with h | h
    · rw [Search.result?, hv] at h
      exact absurd (Option.some.inj h) hvx.2.1
    · rw [Search.result?, hv] at h
      rw [← hvx.2.2 y (Option.some.inj h)]
      exact hy

/-- A state formula is decided at the initial node. -/
theorem exists_end_of_state (order : PendingOrder) (hi : g.initial.toList = [i])
    (hf : f.isState = true) {node : Node} (hn : g.node? i = some node) {b : Bool} (hb : f.holdsAt node i = .ok b) :
    ∃ z, Moves g ((Search.start order).seed g f) z ∧
      ((b = true ∧ z.Idle) ∨ (b = false ∧
        z.Halts g (.refuted ((Context.start i).counterexample (.unsatisfied f i))))) := by
  have hunfold : f.unfold ((Job.root i f).position node) =
      .ok (if b then .pass else .fail (.unsatisfied f i)) := by
    have hjudge : f.judge ((Job.root i f).position node) =
        .ok (if b then .holds else .fails (.unsatisfied f i)) := by
      change (f.holdsAt node i >>= fun v =>
        if v then pure Judgement.holds else pure (.fails (.unsatisfied f i))) = _
      rw [hb]
      cases b <;> rfl
    unfold Formula.unfold
    rw [if_pos hf, hjudge]
    cases b <;> rfl
  rw [Search.seed_start hi]
  have htake : Moves g { Search.start order with queue := [.root i f] } _ :=
    .step (.take rfl rfl (Search.takes_singleton rfl))
      (.single (.visit rfl rfl List.not_mem_nil hn hunfold))
  cases b with
  | true =>
    refine ⟨_, htake.trans (.step (.resumeNone rfl) (.single (.releaseNone rfl))), .inl ⟨rfl, ?_⟩⟩
    exact ⟨rfl, rfl, rfl⟩
  | false => exact ⟨_, htake, .inr ⟨rfl, .refuted rfl⟩⟩

theorem opposite_of_state (hi : g.initial.toList = [i]) (hf : f.universal.isState = true)
    (hd : f.IsDefinedOn g) (hz : Course g order [f] past z) (hze : z.Ends g)
    (hz' : Course g order [.not f] past' z') (hze' : z'.Ends g) : Opposite g z z' := by
  obtain ⟨node, hn⟩ := Kripke.exists_node? hi
  obtain ⟨b, hb⟩ : ∃ b, f.universal.holdsAt node i = .ok b := by
    cases h : f.universal.holdsAt node i with
    | ok b => exact ⟨b, rfl⟩
    | error e =>
      cases e with
      | atom e => exact absurd h ((hd.mono (atoms_universal f)).holdsAt_ne_atom hn e)
      | temporal p => exact absurd h (holdsAt_ne_temporal hf p)
  have hb' : f.universal.not.holdsAt node i = .ok !b := by
    rw [holdsAt, hb]
    rfl
  -- an end that the search comes to is the one it is at
  have hend {e : Formula} {past z u : Search} (hz : Course g order [e] past z) (hze : z.Ends g)
      (hu : Moves g ((Search.start order).seed g e.universal) u) (hue : u.Ends g) : z = u :=
    hze.unique hue (Course.seed .start ⟨rfl, rfl, rfl⟩ e).valid_accounts.1 hz.moves_of_singleton hu
  obtain ⟨u, hu, hub⟩ := exists_end_of_state order hi hf hn hb
  obtain ⟨u', hu', hub'⟩ := exists_end_of_state order (f := f.universal.not) hi hf hn hb'
  obtain rfl := hend hz hze hu (hub.imp And.right fun h => ⟨_, h.2⟩)
  obtain rfl := hend hz' hze' hu' (hub'.imp And.right fun h => ⟨_, h.2⟩)
  cases b with
  | true =>
    have hidle : z.Idle := hub.elim And.right fun h => absurd h.1 (by simp)
    have hx : ∃ x, z'.Halts g (.refuted x) := hub'.elim (fun h => absurd h.1 (by simp)) fun h => ⟨_, h.2⟩
    exact ⟨fun _ => hx, fun _ hx => absurd hx hidle.not_refuted,
      fun _ hx => absurd hx hidle.not_refuted⟩
  | false =>
    have hidle : z'.Idle := hub'.elim And.right fun h => absurd h.1 (by simp)
    have hx := (hub.resolve_left fun h => absurd h.1 (by simp)).2
    exact ⟨fun h => absurd hx h.not_refuted, fun _ _ _ => hidle, fun _ _ _ => .inl hidle⟩

theorem Formula.windows_eq_nil (hf : f.isWindowFree = true) : f.windows = [] := by
  induction f with
  | atom => rfl
  | not f ih | always q f ih | eventually q f ih | next q f ih => exact ih hf
  | and l r ihl ihr | or l r ihl ihr | implies l r ihl ihr | strongUntil q l r ihl ihr
    | weakUntil q l r ihl ihr =>
    rw [isWindowFree, Bool.and_eq_true] at hf
    rw [windows, ihl hf.1, ihr hf.2]
    rfl
  | within => cases hf

/-- Without windows, none is left. -/
theorem isBudget_of_isWindowFree (hf : f.isWindowFree = true) (hz : Course g order [f] past z)
    {x : Counterexample} (hx : z.Halts g (.refuted x)) : x.violation.isBudget = false := by
  cases hx with
  | refuted ht =>
    obtain ⟨root, hroot, _, _, _, -, -, hj⟩ := (hz.traced.head ht _ rfl).2
    obtain rfl : (f.universal, ∅) = root := Option.some.inj hroot
    have hmeets (y : Statement) : ¬ Meets (f.universal, ∅) y := by
      rintro (hy | ⟨w, hw, -⟩)
      · cases hy
      · have hw := windows_universal f hw
        rw [windows_eq_nil hf] at hw
        cases hw
    revert hj
    cases x.violation with
    | unsatisfied | holds | noWitness => exact fun _ => rfl
    | constraint | unreached => exact fun hj => absurd hj.2.1 (hmeets _)

namespace Checker

variable {c : Checker}

/-- A check of a single requirement answers as its search ends. -/
theorem check_singleton (hl : c.settings.popLimit = none) (hv : f.validate = .ok ())
    (hd : f.IsDefinedOn c.graph) :
    ∃ past z, Course c.graph c.store.config.order [f] past z ∧
      ((z.Idle ∧ (c.check [f]).1.result = .ok ()) ∨
      ∃ x, z.Halts c.graph (.refuted x) ∧
        (c.check [f]).1.result = .error (.error (.unsatisfied 0 f x))) :=
  check_of_evaluates hl hv hd.evaluates

/-- A graph with one initial node either satisfies a formula or its negation, unless the search for
the formula is ended by a window: then the negation is satisfied or ends the same way. -/
theorem check_not (c : Checker) (f : Formula) (i : NodeId) (hl : c.settings.popLimit = none)
    (hv : f.validate = .ok ()) (hd : f.IsDefinedOn c.graph) (hi : c.graph.initial.toList = [i]) :
    let answer := (c.check [f]).1.result
    let opposite := (c.check [.not f]).1.result
    (answer = .ok () ∨ ∃ x, answer = .error (.error (.unsatisfied 0 f x))) ∧
    (answer = .ok () → ∃ x, opposite = .error (.error (.unsatisfied 0 (.not f) x))) ∧
    (∀ x, answer = .error (.error (.unsatisfied 0 f x)) →
      (x.violation.isBudget = false → opposite = .ok ()) ∧
      (x.violation.isBudget = true →
        opposite = .ok () ∨ opposite = .error (.error (.unsatisfied 0 (.not f) x)))) ∧
    (f.isWindowFree = true → (opposite = .ok () ↔ answer ≠ .ok ())) := by
  intro answer opposite
  obtain ⟨past, z, hz, hend⟩ := check_singleton hl hv hd
  obtain ⟨past', z', hz', hend'⟩ := check_singleton (f := .not f) hl hv hd
  have hze : z.Ends c.graph := hend.imp And.left fun ⟨x, hx, _⟩ => ⟨x, hx⟩
  have hze' : z'.Ends c.graph := hend'.imp And.left fun ⟨x, hx, _⟩ => ⟨x, hx⟩
  have hopp : Opposite c.graph z z' := by
    cases hf : f.universal.isState with
    | true => exact opposite_of_state hi hf hd hz hze hz' hze'
    | false => exact opposite_of_temporal hi hf hz hz' hze'
  have hholds : z'.Idle → opposite = .ok () := fun h =>
    hend'.elim And.right fun ⟨_, hx, _⟩ => absurd hx h.not_refuted
  have hfails {x : Counterexample} (hx : z'.Halts c.graph (.refuted x)) :
      opposite = .error (.error (.unsatisfied 0 (.not f) x)) := by
    rcases hend' with ⟨hidle, -⟩ | ⟨y, hy, ho⟩
    · exact absurd hx hidle.not_refuted
    · rw [hx.refuted_unique hy]
      exact ho
  rcases hend with ⟨hidle, ha⟩ | ⟨x, hx, ha⟩
  · obtain ⟨y, hy⟩ := hopp.holds hidle
    have ho := hfails hy
    refine ⟨.inl ha, fun _ => ⟨y, ho⟩, fun x hx => ?_, fun _ => ?_⟩
    · cases ha.symm.trans hx
    · simp [answer, ha, ho]
  · refine ⟨.inr ⟨x, ha⟩, fun h => ?_, fun y hy => ?_, fun hf => ?_⟩
    · cases ha.symm.trans h
    · cases ha.symm.trans hy
      exact ⟨fun hb => hholds (hopp.fails x hx hb), fun hb => (hopp.budget x hx hb).imp hholds hfails⟩
    · simp [answer, ha, hholds (hopp.fails x hx (isBudget_of_isWindowFree hf hz hx))]

/-- Without a window the negation of what is refuted is accepted. With one, both are ended by it. -/
theorem check_not_swing :
    let c := small (.swing ⟨2, 0⟩ ⟨1, 0⟩) .depthFirst
    let f := Formula.eventually .all .falsum
    let e := f.within (.ofList [⟨.time, .le, ⟨1, ⟨.time, .pico⟩⟩⟩])
    (c.check [.not f]).1.result = .ok () ∧
    ∃ x, x.violation.isBudget = true ∧
      (c.check [e]).1.result = .error (.error (.unsatisfied 0 e x)) ∧
      (c.check [.not e]).1.result = .error (.error (.unsatisfied 0 (.not e) x)) := by
  intro c f e
  have hd : f.IsDefinedOn c.graph := by
    intro a ha i node _
    rw [List.mem_singleton.mp ha]
    exact ⟨false, rfl⟩
  obtain ⟨-, -, -, hfree⟩ := check_not c f ⟨0⟩ rfl rfl hd rfl
  obtain ⟨hanswer, -, hbudget, -⟩ := check_not c e ⟨0⟩ rfl (by decide) hd rfl
  refine ⟨(hfree rfl).mpr (by decide +kernel), ?_⟩
  obtain ⟨x, hx⟩ := hanswer.resolve_left (by decide +kernel)
  cases hb : x.violation.isBudget with
  | false => exact absurd ((hbudget x hx).1 hb) (by decide +kernel)
  | true => exact ⟨x, hb, hx, ((hbudget x hx).2 hb).resolve_left (by decide +kernel)⟩

end Checker

end CostCTL
