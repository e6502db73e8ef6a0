import CostCTL.Formula.Semantics
import CostCTL.Proofs.View

/-!
# Turns are made of moves

Every part of a turn does what the moves of its tasks do: from what is seen of a run with the task
on top, tasks lead to what is seen of the run afterwards. A part that halts is at a task that halts.
All of this holds as long as each search on the way is `Ready`.
-/

namespace CostCTL

variable {g : Kripke} {α β : Type}

/-- Tasks lead from `s` to `t`, whichever they are. -/
def Works (g : Kripke) (s t : Search) : Prop := ∃ l, s.Performs g l t

namespace Works

variable {s t u : Search}

theorem refl (s : Search) : Works g s s := ⟨[], .nil s⟩

theorem single {k : Task} {ts : List Task} (hs : s.tasks = k :: ts) (h : Move g s t) :
    Works g s t := ⟨[k], .cons hs h (.nil t)⟩

theorem trans (h : Works g s t) (h' : Works g t u) : Works g s u := by
  obtain ⟨l, hl⟩ := h
  obtain ⟨m, hm⟩ := h'
  exact ⟨l ++ m, hl.append hm⟩

theorem moves (h : Works g s t) : Moves g s t := by
  obtain ⟨l, hl⟩ := h
  exact hl.moves

end Works

/-- Tasks lead from `s` to the result of a computation, which leaves the tasks `after` its value. -/
def Leads (g : Kripke) (s : Search) (after : α → List Task) (result : EStateM.Result Halt Run α) :
    Prop :=
  (∃ u, Moves g s u ∧ ¬ u.Ready g) ∨
  match result with
  | .ok a r => r.store.Sound ∧ Works g s (r.view (after a))
  | .error h _ => ∃ u, Moves g s u ∧ u.Halts g h

namespace Leads

variable {s t : Search} {after : α → List Task} {result : EStateM.Result Halt Run α}

theorem works (h : Works g s t) (ht : Leads g t after result) : Leads g s after result := by
  rcases ht with ⟨u, hu, hr⟩ | ht
  · exact .inl ⟨u, h.moves.trans hu, hr⟩
  · cases result with
    | ok a r => exact .inr ⟨ht.1, h.trans ht.2⟩
    | error e r =>
      obtain ⟨u, hu, he⟩ := ht
      exact .inr ⟨u, h.moves.trans hu, he⟩

theorem move {k : Task} {ts : List Task} (hs : s.tasks = k :: ts) (h : Move g s t)
    (ht : Leads g t after result) : Leads g s after result := ht.works (.single hs h)

/-- Only searches that are ready matter. -/
theorem of_ready (h : s.Ready g → Leads g s after result) : Leads g s after result := by
  by_cases hr : s.Ready g
  · exact h hr
  · exact .inl ⟨s, .refl s, hr⟩

theorem halt {h : Halt} {r : Run} (hs : s.Halts g h) :
    Leads g s after (.error h r : EStateM.Result Halt Run α) :=
  .inr ⟨s, .refl s, hs⟩

theorem ok {a : α} {r : Run} (hs : r.store.Sound) : Leads g (r.view (after a)) after (.ok a r) :=
  .inr ⟨hs, .refl _⟩

theorem bind {m : RunM α} {k : α → RunM β} {r : Run} {later : β → List Task}
    (hm : Leads g s after (m r))
    (hk : ∀ a r', r'.store.Sound → Leads g (r'.view (after a)) later (k a r')) :
    Leads g s later ((m >>= k) r) := by
  rcases hm with hm | hm
  · exact .inl hm
  · cases hr : m r with
    | ok a r' =>
      rw [hr] at hm
      rw [RunM.bind_run hr]
      exact (hk a r' hm.1).works hm.2
    | error e r' =>
      rw [hr] at hm
      rw [RunM.bind_error hr]
      exact .inr hm

/-- A computation whose effect is known. -/
theorem of_does {m : RunM α} {a : α} {f : Search → Search} {r : Run} {ts : List Task}
    (h : r.Does m a f) (hf : Works g (r.view ts) (f (r.view (after a)))) :
    Leads g (r.view ts) after (m r) := by
  obtain ⟨r', hm, hs, hv⟩ := h
  rw [hm]
  exact .inr ⟨hs, (hv _).symm ▸ hf⟩

end Leads

/-- What is left after executing an obligation. -/
def Progress.tasks (n : Nat) (c : Context) (link : Option RevisitId) : Progress → List Task
  | .waiting => []
  | .met => [.resume n c link]

namespace RunM

variable {r : Run} {l : List Task}

/-! ### Failing and releasing -/

theorem exists_of_result? {s : Search} {i : SessionId} (h : s.result? (some i) ≠ none) :
    ∃ t, s.session? i = some t := by
  rw [Search.result?, ne_eq, Option.map_eq_none_iff] at h
  exact Option.ne_none_iff_exists'.mp h

theorem note_bind (n : Notice) (k : Unit → RunM α) (r : Run) : (note n >>= k) r = k () (r.note n) :=
  rfl

theorem does_after_note {m : RunM α} {a : α} {f : Search → Search} {n : Notice}
    (h : (r.note n).Does m a f) : r.Does (note n >>= fun _ => m) a f := h

theorem fail_leads (hs : r.store.Sound) (session : Option SessionId) (x : Counterexample) :
    Leads g (r.view (.fail session x :: l)) (fun _ => l) (fail session x r) := by
  refine .of_ready fun ready => ?_
  cases session with
  | none => exact .halt (.refuted rfl)
  | some i =>
    obtain ⟨t, ht⟩ := exists_of_result? (i := i) ready
    cases hx : x.violation.isBudget with
    | true =>
      have h : r.Does (fail (some i) x) () (·.exceed i x) := by
        simp only [fail, hx, if_true]
        exact does_after_note (does_recordExceeded (r := r.note _) hs ht x)
      exact .of_does h (.single rfl (.exceed rfl hx))
    | false =>
      have hr : (r.view (.fail (some i) x :: l)).result? (some i) = some t.result := by
        rw [Search.result?, ht, Option.map_some]
      by_cases hp : t.result = .pending
      · have h : r.Does (fail (some i) x) () (·.complete i (.fail x)) := by
          simp only [fail, hx, Bool.false_eq_true, if_false]
          exact does_after_note (does_complete (r := r.note _) hs ht hp _)
        exact .of_does h (.single rfl (.decide rfl hx (hr.trans (congrArg some hp))))
      · have h : r.Does (fail (some i) x) () id := by
          simp only [fail, hx, Bool.false_eq_true, if_false]
          exact does_after_note (does_complete_late (r := r.note _) hs ht hp _)
        exact .of_does h (.single rfl (.decideLate rfl hx ⟨t.result, hr, hp⟩))

theorem session?_release {s : Search} {i : SessionId} {t : Session} (h : s.session? i = some t) :
    (s.release i).session? i = some { t with outstanding := t.outstanding - 1 } := by
  rw [Search.release, Search.session?_modifySession, if_pos rfl, h, Option.map_some]

theorem isPending_eq_false_iff {result : SessionResult} :
    result.isPending = false ↔ result ≠ .pending := by
  cases result <;> simp [SessionResult.isPending]

theorem does_release {i : SessionId} {t : Session} (hs : r.store.Sound)
    (ht : (r.view []).session? i = some t) (hn : t.outstanding ≠ 0)
    (hl : t.outstanding ≠ 1 ∨ t.result ≠ .pending) :
    r.Does (release (some i)) () (·.release i) := by
  obtain ⟨r', h₁, hs', hv'⟩ := does_releaseOne hs ht hn
  refine ⟨r', ?_, hs', hv'⟩
  rw [release, bind_run h₁]
  by_cases h1 : t.outstanding = 1
  · have hr : (r'.view []).result? (some i) = some t.result := by
      rw [hv', Search.result?, session?_release ht]
      rfl
    have hp := isPending_eq_false_iff.mpr (hl.resolve_left (not_not_intro h1))
    simp only [h1, decide_true, Bool.not_true, Bool.false_eq_true, if_false]
    rw [bind_run (isSettled_run hr), hp]
    rfl
  · simp only [h1, decide_false, Bool.not_false, if_true]
    rfl

theorem does_finish {i : SessionId} {t : Session} (hs : r.store.Sound)
    (ht : (r.view []).session? i = some t) (hn : t.outstanding = 1) (hp : t.result = .pending) :
    r.Does (release (some i)) () fun s => (s.release i).complete i t.outcome := by
  obtain ⟨r', h₁, hs', hv'⟩ := does_releaseOne hs ht (by omega)
  have ht' : (r'.view []).session? i = some { t with outstanding := t.outstanding - 1 } := by
    rw [hv']
    exact session?_release ht
  have hr : (r'.view []).result? (some i) = some t.result := by
    rw [Search.result?, ht']
    rfl
  have hx : r'.store.exceeded? i = some t.exceeded := by
    rw [Store.exceeded?, ← Run.session?_view r' [], ht']
    rfl
  have hrun : ∃ n, release (some i) r = complete i t.outcome (r'.note n) := by
    rw [release, bind_run h₁]
    simp only [hn, decide_true, Bool.not_true, Bool.false_eq_true, if_false]
    rw [bind_run (isSettled_run hr), hp]
    simp only [SessionResult.isPending, Bool.not_true, Bool.false_eq_true, if_false]
    rw [bind_run (ask_run hx), Session.outcome]
    cases t.exceeded with
    | none => exact ⟨.sessionPassed i, rfl⟩
    | some x => exact ⟨.sessionExceeded i x.violation, rfl⟩
  obtain ⟨n, hrun⟩ := hrun
  obtain ⟨u, hu, hsu, hvu⟩ := does_complete (r := r'.note n) hs' ht' hp t.outcome
  exact ⟨u, hrun.trans hu, hsu, fun ts => (hvu ts).trans (congrArg (·.complete i t.outcome) (hv' ts))⟩

theorem release_leads (hs : r.store.Sound) (session : Option SessionId) :
    Leads g (r.view (.release session :: l)) (fun _ => l) (release session r) := by
  refine .of_ready fun ready => ?_
  cases session with
  | none => exact .of_does (Run.Does.pure hs ()) (.single rfl (.releaseNone rfl))
  | some i =>
    obtain ⟨t, ht, hn⟩ := ready i rfl
    by_cases hl : t.outstanding ≠ 1 ∨ t.result ≠ .pending
    · exact .of_does (does_release hs ht hn hl) (.single rfl (.release rfl ht hn hl))
    · simp only [not_or, not_not] at hl
      exact .of_does (does_finish hs ht hl.1 hl.2) (.single rfl (.finish rfl ht hl.1 hl.2))

/-! ### Executing -/

/-- Spawning the jobs of an obligation, in whichever way it is done. -/
theorem leads_of_spawn {m : RunM Progress} {n : Nat} {c : Context} {link : Option RevisitId}
    {o : Obligation} {jobs : List Job} (hj : o.jobs? g c link = some jobs)
    (h : r.Does m .waiting (·.push c.session jobs)) :
    Leads g (r.view (.execute n c link o :: l)) (fun p => p.tasks n c link ++ l) (m r) := by
  refine .of_does h (.single rfl ?_)
  have := Move.spawn (s := r.view (.execute n c link o :: l)) rfl hj
  rw [Search.withTasks_push] at this
  exact this

theorem does_spawn_waiting {j : Job} (hs : r.store.Sound)
    (hj : (r.view []).result? j.session ≠ none) :
    r.Does (do spawn j; return Progress.waiting) .waiting (·.push j.session [j]) :=
  (does_spawn hs hj).bind (h := id) fun _ hs' _ => .pure hs' _

theorem does_fanOut {c : Context} (hs : r.store.Sound) (hc : c.node.index < g.size)
    (hr : (r.view []).result? c.session ≠ none) (link : Option RevisitId) (history : History)
    (f : Formula) :
    r.Does (fanOut g c link history f) .waiting (·.push c.session (c.spread g link history f)) := by
  have hjobs : ∀ j ∈ c.spread g link history f, j.session = c.session := by
    intro j hj
    obtain ⟨e, -, rfl⟩ := List.mem_map.mp hj
    rfl
  have hd := (does_spawnAll hs hjobs hr).bind (h := id) (k := fun _ => pure Progress.waiting)
    fun _ hs' _ => .pure hs' _
  obtain ⟨r', hm, hs', hv⟩ := hd
  refine ⟨r', ?_, hs', hv⟩
  rw [Context.spread, List.forM_eq_forM, List.forM_map] at hm
  rw [fanOut, bind_run (edgesAt_run hc)]
  exact hm

/-- A question that nobody asked before opens a session. -/
theorem does_askSession_new {c : Context} {p : Precondition} (hs : r.store.Sound)
    (hk : (c.inquiry p.formula).sessionKey ∉ (r.view []).keys) (i : RevisitId) :
    r.Does (askSession i c p) none (·.openSession (c.inquiry p.formula) i) := by
  have hlen : (r.view []).sessions.length = (r.view []).keys.length := hs.keys.symm
  obtain ⟨r₁, h₁, hs₁, hv₁⟩ := does_openSession hs hk i
  have hnew : (r₁.view []).session? (r.view []).nextSession =
      some ⟨.pending, Deque.empty.pushBack i, 0, none⟩ := by
    rw [hv₁, Search.session?, Search.nextSession, ← hlen]
    exact Numbered.get?_concat_self _ _
  have hres : (r₁.view []).result? (some (r.view []).nextSession) ≠ none := by
    rw [Search.result?, hnew]
    simp
  let root : Job := { c.inquiry p.formula with session := some (r.view []).nextSession }
  obtain ⟨r₂, h₂, hs₂, hv₂⟩ := does_spawn (j := root)
    (r := r₁.note (.sessionOpened (r.view []).nextSession p.formula c.node)) hs₁ hres
  have hview (ts : List Task) : r₂.view ts = (r.view ts).openSession (c.inquiry p.formula) i := by
    rw [← Search.push_eq_openSession (s := r.view ts) hlen]
    exact (hv₂ ts).trans (congrArg (·.push (some (r.view []).nextSession) [root]) (hv₁ ts))
  have hpend : (r₂.view []).session? (r.view []).nextSession =
      some ⟨.pending, Deque.empty.pushBack i, 1, none⟩ := by
    rw [hview, Search.session?, Search.nextSession, ← hlen]
    exact Numbered.get?_concat_self _ _
  refine ⟨r₂, ?_, hs₂, hview⟩
  rw [askSession, bind_run h₁]
  simp only [if_true]
  rw [note_bind, bind_run h₂, bind_run (sessionResult_run hpend)]
  rfl

/-- A question that was asked before joins its session, unless that has its result. -/
theorem does_askSession_old {c : Context} {p : Precondition} {k : SessionId} {t : Session}
    (hs : r.store.Sound) (hk : (r.view []).key? k = some (c.inquiry p.formula).sessionKey)
    (hi : (r.view []).session? k = some t) (i : RevisitId) :
    r.Does (askSession i c p) (Finding.ofResult? t.result)
      (·.modifySession k (Session.enroll i)) := by
  obtain ⟨r₁, h₁, hs₁, hv₁⟩ := does_joinSession hs hk hi i
  have hadm : (Session.enroll i t).result = t.result := by
    rw [Session.enroll]
    split <;> rfl
  have ht : (r₁.view []).session? k = some (Session.enroll i t) := by
    rw [hv₁, Search.session?_modifySession, if_pos rfl, hi, Option.map_some]
  refine ⟨r₁.note (.sessionJoined k i), ?_, hs₁, hv₁⟩
  rw [askSession, bind_run h₁]
  simp only [Bool.false_eq_true, if_false]
  rw [note_bind, bind_run (sessionResult_run (r := r₁.note _) ht), hadm]
  rfl

theorem result?_eq {s : Search} {session : Option SessionId} (h : s.result? session ≠ none) :
    s.Open session ∨ s.Settled session := by
  obtain ⟨result, hr⟩ := Option.ne_none_iff_exists'.mp h
  by_cases hp : result = .pending
  · exact .inl (hr.trans (congrArg some hp))
  · exact .inr ⟨result, hr, hp⟩

theorem isSettled_run_open {session : Option SessionId} (h : (r.view []).Open session) :
    isSettled session r = .ok false r := isSettled_run h

theorem isSettled_run_settled {session : Option SessionId} (h : (r.view []).Settled session) :
    isSettled session r = .ok true r := by
  obtain ⟨result, hr, hp⟩ := h
  rw [isSettled_run hr, isPending_eq_false_iff.mpr hp]
  rfl

theorem react_leads {n : Nat} {c : Context} {link : Option RevisitId} {o : Obligation}
    {proceed : RunM Progress} (hs : r.store.Sound)
    (hp : Leads g (r.view (.execute n c link o :: l)) (fun p => p.tasks n c link ++ l)
      (proceed r)) (reaction : Reaction) :
    Leads g (r.view (reaction.tasks n c link o ++ l)) (fun p => p.tasks n c link ++ l)
      (react c proceed reaction r) := by
  cases reaction with
  | proceed => exact hp
  | met => exact .ok hs
  | fail x =>
    exact (fail_leads hs c.session x).bind (k := fun _ => pure Progress.waiting) fun _ r' hs' =>
      .inr ⟨hs', .refl _⟩

theorem node?_of_lt {i : NodeId} (h : i.index < g.size) : ∃ node, g.node? i = some node :=
  ⟨g.nodes[i.index], Array.getElem?_eq_getElem h⟩

/-- A precondition that the node decides. -/
theorem judge_leads {n : Nat} {c : Context} {link : Option RevisitId} {o : Obligation}
    {p : Precondition} (hs : r.store.Sound) (hc : c.node.index < g.size)
    (hp : p.formula.isState = true)
    (ih : Leads g (r.view (.execute n c link o :: l)) (fun p => p.tasks n c link ++ l)
      (execute g c link o r)) :
    Leads g (r.view (.execute n c link (.revisit o p) :: l)) (fun p => p.tasks n c link ++ l)
      (execute g c link (.revisit o p) r) := by
  obtain ⟨node, hn⟩ := node?_of_lt hc
  rw [execute, if_pos hp, bind_run (nodeAt_run hn)]
  cases hj : p.formula.judge (c.position node) with
  | ok judgement =>
    exact .move rfl (.judge rfl hp hn hj) (react_leads hs ih _)
  | error e =>
    cases e with
    | atom e => exact .halt (.judge rfl hn hj)
    | temporal f => exact absurd hj (Formula.judge_ne_temporal hp f)

/-- A required precondition is checked by a job of its own. -/
theorem require_leads {n : Nat} {c : Context} {link : Option RevisitId} {o : Obligation}
    {p : Precondition} (hs : r.store.Sound) (hr : (r.view []).result? c.session ≠ none)
    (hp : p.formula.isState = false) (hk : p.kind = .required) :
    Leads g (r.view (.execute n c link (.revisit o p) :: l)) (fun p => p.tasks n c link ++ l)
      (execute g c link (.revisit o p) r) := by
  have hd : r.Does (execute g c link (.revisit o p)) .waiting fun s =>
      (s.suspend ⟨c, o, p, link⟩).push c.session [c.demand p.formula (r.view []).nextRevisit] := by
    obtain ⟨r₁, h₁, hs₁, hv₁⟩ := does_addRevisit hs ⟨c, o, p, link⟩
    obtain ⟨r₂, h₂, hs₂, hv₂⟩ := does_spawn_waiting
      (j := c.demand p.formula (r.view []).nextRevisit) hs₁ (by rw [hv₁]; exact hr)
    refine ⟨r₂, ?_, hs₂, fun ts => by rw [hv₂, hv₁]; rfl⟩
    rw [execute, if_neg (by simp [hp]), bind_run h₁, if_pos hk]
    exact h₂
  have := Move.require (g := g) (s := r.view (.execute n c link (.revisit o p) :: l)) rfl hp hk
  rw [Search.withTasks_push] at this
  exact .of_does hd (.single rfl this)

/-- Wait for a session, on behalf of the owner. -/
def await (owner : Option SessionId) : RunM Progress := do
  if let some owner := owner then retain owner
  return .waiting

theorem does_await {owner : Option SessionId} (hs : r.store.Sound)
    (hr : (r.view []).result? owner ≠ none) :
    r.Does (await owner) .waiting (·.retain 1 owner) := by
  cases owner with
  | none => exact .pure hs _
  | some i =>
    obtain ⟨t, ht⟩ := exists_of_result? hr
    rw [Run.session?_view] at ht
    exact (does_retain hs ht).bind (h := id) fun _ hs' _ => .pure hs' _

theorem key?_or (s : Search) (k : SessionKey) : k ∉ s.keys ∨ ∃ i, s.key? i = some k := by
  by_cases h : k ∈ s.keys
  · obtain ⟨n, hn⟩ := Numbered.exists_get?_of_mem h
    exact .inr ⟨⟨n⟩, hn⟩
  · exact .inl h

theorem session?_of_key? {i : SessionId} {k : SessionKey} (hs : r.store.Sound)
    (h : (r.view []).key? i = some k) : ∃ t, (r.view []).session? i = some t := by
  refine Option.ne_none_iff_exists'.mp (Numbered.get?_ne_none_iff.mpr ?_)
  exact ⟨Numbered.pos_of_get? h, Nat.le_trans (Numbered.le_of_get? h) (Nat.le_of_eq hs.keys)⟩

theorem modifySession_enroll {s : Search} {k : SessionId} {t : Session} (h : s.session? k = some t)
    (i : RevisitId) : s.modifySession k (Session.enroll i) =
      if t.result = .pending then s.join k i else s := by
  split
  · next hp =>
    rw [Search.join, Search.modifySession, Search.modifySession, Numbered.modify_congr h]
    rw [Session.enroll, hp]
    rfl
  · next hp =>
    rw [Search.modifySession, Numbered.modify_congr (h := id) h, Numbered.modify_id]
    rw [Session.enroll, isPending_eq_false_iff.mpr hp]
    rfl

theorem reactTo_settled {i : RevisitId} {c : Context} {p : Precondition} {proceed : RunM Progress}
    {finding : Finding} (h : (r.view []).Settled c.session) :
    reactTo i c p proceed finding r = .ok .waiting (r.note (.ownerSettled i)) := by
  rw [reactTo, bind_run (isSettled_run_settled h)]
  rfl

theorem reactTo_open {i : RevisitId} {c : Context} {p : Precondition} {proceed : RunM Progress}
    {finding : Finding} (h : (r.view []).Open c.session) :
    reactTo i c p proceed finding r = react c proceed (p.react c finding) r := by
  rw [reactTo, bind_run (isSettled_run_open h)]
  rfl

theorem ofResult?_eq_some {result : SessionResult} (h : result ≠ .pending) :
    ∃ finding, Finding.ofResult? result = some finding := by
  cases result with
  | pending => exact absurd rfl h
  | pass => exact ⟨_, rfl⟩
  | fail x => exact ⟨_, rfl⟩
  | exceeded x => exact ⟨_, rfl⟩

/-- What is done about a precondition once its revisit is on record. -/
def inquire (g : Kripke) (c : Context) (link : Option RevisitId) (o : Obligation)
    (p : Precondition) (i : RevisitId) : RunM Progress := do
  match ← askSession i c p with
  | some finding => reactTo i c p (execute g c link o) finding
  | none => await c.session

section Inquire

variable {n : Nat} {c : Context} {link : Option RevisitId} {o : Obligation} {p : Precondition}
  {r₁ : Run}

/-- A precondition that nobody asked for before. -/
theorem inquire_new_leads (hs₁ : r₁.store.Sound)
    (hv₁ : ∀ ts, r₁.view ts = (r.view ts).suspend ⟨c, o, p, link⟩)
    (hr : (r.view []).result? c.session ≠ none) (hp : p.formula.isState = false)
    (hk : p.kind ≠ .required) (hnew : (c.inquiry p.formula).sessionKey ∉ (r.view []).keys) :
    Leads g (r.view (.execute n c link (.revisit o p) :: l)) (fun p => p.tasks n c link ++ l)
      (inquire g c link o p (r.view []).nextRevisit r₁) := by
  have hnew₁ : (c.inquiry p.formula).sessionKey ∉ (r₁.view []).keys := by rw [hv₁]; exact hnew
  obtain ⟨r₂, h₂, hs₂, hv₂⟩ := does_askSession_new hs₁ hnew₁ (r.view []).nextRevisit
  have hr₂ : (r₂.view []).result? c.session ≠ none := by
    obtain ⟨result, hresult⟩ := Option.ne_none_iff_exists'.mp hr
    have hresult₁ : (r₁.view []).result? c.session = some result := by rw [hv₁]; exact hresult
    rw [hv₂, Search.result?_openSession hresult₁]
    simp
  obtain ⟨r₃, h₃, hs₃, hv₃⟩ := does_await hs₂ hr₂
  have hm := Move.inquire (g := g) (s := r.view (.execute n c link (.revisit o p) :: l)) rfl hp hk
    hnew
  rw [Search.withTasks_retain] at hm
  rw [inquire, bind_run h₂]
  change Leads g _ _ (await c.session r₂)
  rw [h₃]
  refine .inr ⟨hs₃, .single rfl ?_⟩
  rw [hv₃, hv₂, hv₁]
  exact hm

/-- A precondition that a session looks for already. -/
theorem inquire_pending_leads {k : SessionId} {t : Session} (hs₁ : r₁.store.Sound)
    (hv₁ : ∀ ts, r₁.view ts = (r.view ts).suspend ⟨c, o, p, link⟩)
    (hr : (r.view []).result? c.session ≠ none) (hp : p.formula.isState = false)
    (hk : p.kind ≠ .required) (hkey : (r.view []).key? k = some (c.inquiry p.formula).sessionKey)
    (ht : (r.view []).session? k = some t) (hpend : t.result = .pending) :
    Leads g (r.view (.execute n c link (.revisit o p) :: l)) (fun p => p.tasks n c link ++ l)
      (inquire g c link o p (r.view []).nextRevisit r₁) := by
  obtain ⟨r₂, h₂, hs₂, hv₂⟩ := does_askSession_old (t := t) hs₁ (by rw [hv₁]; exact hkey)
    (by rw [hv₁]; exact ht) (r.view []).nextRevisit
  have hview (ts : List Task) : r₂.view ts = (r₁.view ts).join k (r.view []).nextRevisit := by
    refine (hv₂ ts).trans ((modifySession_enroll ?_ _).trans (if_pos hpend))
    rw [hv₁]
    exact ht
  have hr₂ : (r₂.view []).result? c.session ≠ none := by
    rw [hview, Search.result?_join, hv₁]
    exact hr
  obtain ⟨r₃, h₃, hs₃, hv₃⟩ := does_await hs₂ hr₂
  have hopen : (r.view []).Open (some k) := by
    rw [Search.Open, Search.result?, ht, Option.map_some, hpend]
  have hm := Move.join (g := g) (s := r.view (.execute n c link (.revisit o p) :: l)) rfl hp hk
    hkey hopen
  rw [Search.withTasks_retain] at hm
  rw [inquire, bind_run h₂, hpend]
  change Leads g _ _ (await c.session r₂)
  rw [h₃]
  refine .inr ⟨hs₃, .single rfl ?_⟩
  rw [hv₃, hview, hv₁]
  exact hm

/-- A precondition whose session has its result. -/
theorem inquire_settled_leads {k : SessionId} {t : Session} (hs₁ : r₁.store.Sound)
    (hv₁ : ∀ ts, r₁.view ts = (r.view ts).suspend ⟨c, o, p, link⟩)
    (hr : (r.view []).result? c.session ≠ none) (hp : p.formula.isState = false)
    (hk : p.kind ≠ .required) (hkey : (r.view []).key? k = some (c.inquiry p.formula).sessionKey)
    (ht : (r.view []).session? k = some t) (hset : t.result ≠ .pending)
    (ih : ∀ {r : Run}, r.store.Sound → Leads g (r.view (.execute n c link o :: l))
      (fun p => p.tasks n c link ++ l) (execute g c link o r)) :
    Leads g (r.view (.execute n c link (.revisit o p) :: l)) (fun p => p.tasks n c link ++ l)
      (inquire g c link o p (r.view []).nextRevisit r₁) := by
  obtain ⟨r₂, h₂, hs₂, hv₂⟩ := does_askSession_old (t := t) hs₁ (by rw [hv₁]; exact hkey)
    (by rw [hv₁]; exact ht) (r.view []).nextRevisit
  have hview (ts : List Task) : r₂.view ts = (r.view ts).suspend ⟨c, o, p, link⟩ := by
    refine (hv₂ ts).trans (((modifySession_enroll ?_ _).trans (if_neg hset)).trans (hv₁ ts))
    rw [hv₁]
    exact ht
  obtain ⟨finding, hf⟩ := ofResult?_eq_some hset
  rw [inquire, bind_run h₂, hf]
  change Leads g _ _ (reactTo _ c p (execute g c link o) finding r₂)
  have hsettled : (r.view []).Settled (some k) := ⟨t.result, by rw [Search.result?, ht]; rfl, hset⟩
  rcases result?_eq hr with hopen | hlate
  · rw [reactTo_open (by rw [hview]; exact hopen)]
    refine .move rfl (.answer rfl hp hk hkey ht hf hopen) ?_
    have hlead := react_leads hs₂ (ih hs₂) (p.react c finding)
    rw [hview] at hlead
    exact hlead
  · rw [reactTo_settled (by rw [hview]; exact hlate)]
    refine .inr ⟨hs₂, .single rfl ?_⟩
    have hm := Move.answerLate (g := g) (s := r.view (.execute n c link (.revisit o p) :: l)) rfl
      hp hk hkey hsettled hlate
    change Move g _ (r₂.view _)
    rw [hview]
    exact hm

end Inquire

theorem execute_leads (hs : r.store.Sound) (n : Nat) (c : Context) (link : Option RevisitId)
    (o : Obligation) :
    Leads g (r.view (.execute n c link o :: l)) (fun p => p.tasks n c link ++ l)
      (execute g c link o r) := by
  induction o generalizing r with
  | here f =>
    refine .of_ready fun ready => ?_
    exact leads_of_spawn rfl (does_spawn_waiting (j := ⟨c, f, link⟩) hs ready.2)
  | successors f =>
    refine .of_ready fun ready => ?_
    exact leads_of_spawn rfl (does_fanOut hs ready.1 ready.2 link c.leave f)
  | step f =>
    refine .of_ready fun ready => ?_
    exact leads_of_spawn rfl (does_fanOut hs ready.1 ready.2 link ∅ f)
  | constrain f w =>
    refine .of_ready fun ready => ?_
    rw [execute]
    cases hw : c.window.merge w with
    | ok window =>
      exact leads_of_spawn (by rw [Obligation.jobs?, hw])
        (does_spawn_waiting (j := ⟨{ c with window }, f, link⟩) hs ready.2)
    | error e => exact .halt (.conflict rfl hw)
  | revisit o p ih =>
    refine .of_ready fun ready => ?_
    cases hp : p.formula.isState with
    | true => exact judge_leads hs ready.1 hp (ih hs)
    | false =>
      by_cases hk : p.kind = .required
      · exact require_leads hs ready.2 hp hk
      · obtain ⟨r₁, h₁, hs₁, hv₁⟩ := does_addRevisit hs ⟨c, o, p, link⟩
        rw [execute, if_neg (by simp [hp]), bind_run h₁, if_neg hk]
        change Leads g _ _ (inquire g c link o p (r.view []).nextRevisit r₁)
        rcases key?_or (r.view []) (c.inquiry p.formula).sessionKey with hnew | ⟨k, hkey⟩
        · exact inquire_new_leads hs₁ hv₁ ready.2 hp hk hnew
        · obtain ⟨t, ht⟩ := session?_of_key? hs hkey
          by_cases hpend : t.result = .pending
          · exact inquire_pending_leads hs₁ hv₁ ready.2 hp hk hkey ht hpend
          · exact inquire_settled_leads hs₁ hv₁ ready.2 hp hk hkey ht hpend ih

/-! ### Resuming -/

/-- Executing, and then resuming what the obligation was linked to. -/
theorem execute_then_leads {n : Nat} {c : Context} {link : Option RevisitId} {m : RunM Progress}
    {k : RunM Unit} {s : Search} (hm : Leads g s (fun p => p.tasks n c link ++ l) (m r))
    (hk : ∀ {r : Run}, r.store.Sound →
      Leads g (r.view (.resume n c link :: l)) (fun _ => l) (k r)) :
    Leads g s (fun _ => l) ((do if (← m) = Progress.met then k) r) := by
  refine hm.bind fun p r' hs' => ?_
  cases p with
  | waiting => exact .inr ⟨hs', .refl _⟩
  | met => exact hk hs'

theorem resumeChain_leads (hs : r.store.Sound) (n : Nat) (c : Context) (link : Option RevisitId) :
    Leads g (r.view (.resume n c link :: l)) (fun _ => l) (resumeChain g n link r) := by
  induction n generalizing r c link with
  | zero =>
    cases link with
    | none => exact .move rfl (.resumeNone rfl) (.inr ⟨hs, .refl _⟩)
    | some i =>
      refine .of_ready fun ready => ?_
      exact absurd (ready i rfl).1 (Nat.lt_irrefl 0)
  | succ n ih =>
    cases link with
    | none => exact .move rfl (.resumeNone rfl) (.inr ⟨hs, .refl _⟩)
    | some i =>
      refine .of_ready fun ready => ?_
      obtain ⟨-, e, he, hr⟩ := ready i rfl
      obtain ⟨r₁, h₁, hs₁, hv₁⟩ := does_markResumed hs he
      rw [resumeChain, bind_run h₁]
      cases hres : e.resumed with
      | true =>
        have hview (ts : List Task) : r₁.view ts = r.view ts :=
          (hv₁ ts).trans (Search.markResumed_of_resumed he hres)
        refine .move rfl (.resumeAgain rfl he hres) (.inr ⟨hs₁, ?_⟩)
        change Works g _ (r₁.view l)
        rw [hview]
        exact .refl _
      | false =>
        have he₁ : (r₁.view []).record? i = some { e with resumed := true } := by
          rw [hv₁, Search.record?_markResumed, if_pos rfl]
          exact congrArg _ he
        simp only [Bool.not_false, if_true]
        rw [bind_run (revisit_run he₁)]
        rcases result?_eq hr with hopen | hset
        · rw [bind_run (isSettled_run_open (by rw [hv₁]; exact hopen))]
          simp only [Bool.not_false, if_true]
          rw [note_bind]
          refine .move rfl (.resume rfl he hres hopen) ?_
          have hx := execute_leads (g := g) (l := l) (r := r₁.note (.resuming i e.revisit.node))
            hs₁ n e.revisit.toContext e.revisit.parent e.revisit.resume
          change Leads g (r₁.view _) _ _ at hx
          rw [hv₁] at hx
          exact execute_then_leads hx fun hs' => ih hs' e.revisit.toContext e.revisit.parent
        · rw [bind_run (isSettled_run_settled (by rw [hv₁]; exact hset))]
          refine .move rfl (.resumeLate rfl he hres hset) (.inr ⟨hs₁, ?_⟩)
          rw [hv₁]
          exact .refl _

theorem carryOut_leads {c : Context} {link : Option RevisitId} {act : RunM Progress} {s : Search}
    (h : Leads g s (fun p => p.tasks (chainBound link) c link ++ l) (act r)) :
    Leads g s (fun _ => l) (carryOut g link act r) :=
  execute_then_leads h fun hs => resumeChain_leads hs (chainBound link) c link

/-! ### Turns -/

/-- What an unfolding leaves to do, and then the release. -/
theorem unfolding_leads (hs : r.store.Sound) (j : Job) (u : Unfolding) :
    Leads g (r.view (u.tasks j ++ .release j.session :: l)) (fun _ => l) ((do
      match u with
      | .pass => resume g j.link
      | .fail v => fail j.session (j.counterexample v)
      | .obligation o => carryOut g j.link (execute g j.toContext j.link o)
      release j.session) r) := by
  cases u with
  | pass =>
    exact (resumeChain_leads hs _ j.toContext j.link).bind fun _ _ hs' => release_leads hs' _
  | fail v => exact (fail_leads hs j.session _).bind fun _ _ hs' => release_leads hs' _
  | obligation o =>
    exact (carryOut_leads (execute_leads hs _ j.toContext j.link o)).bind fun _ _ hs' =>
      release_leads hs' _

/-- A job whose key was not visited before. -/
theorem process_fresh_leads {j : Job} (hs : r.store.Sound) (hj : j.node.index < g.size)
    (hopen : (r.view []).Open j.session) (hv : j.visitKey ∉ (r.view []).visited) :
    Leads g (r.view (.process j :: l)) (fun _ => l) (process g j r) := by
  obtain ⟨r₁, h₁, hs₁, hv₁⟩ := does_visit hs j.visitKey
  let r₂ := { r₁ with store := r₁.store.recordDecomposed }
  have hview (ts : List Task) : r₂.view ts =
      { r.view ts with visited := (r.view ts).visited ++ [j.visitKey] } :=
    (hv₁ ts).trans (by simp only [if_neg (show j.visitKey ∉ (r.view ts).visited from hv)])
  obtain ⟨node, hn⟩ := node?_of_lt hj
  rw [process, bind_run (isSettled_run_open hopen)]
  simp only [Bool.false_eq_true, if_false]
  rw [bind_run h₁]
  simp only [hv, decide_false, Bool.false_eq_true, if_false]
  change Leads g _ _ ((nodeAt g j.node >>= _) r₂)
  rw [bind_run (nodeAt_run hn), note_bind]
  cases hu : j.formula.unfold (j.position node) with
  | ok u =>
    refine .move rfl (.visit rfl hopen hv hn hu) ?_
    have hl := unfolding_leads (g := g) (l := l)
      (r := r₂.note (.unfolding j.formula j.node j.inCycle j.session)) ⟨hs₁.jobs, hs₁.keys⟩ j u
    change Leads g (r₂.view _) _ _ at hl
    rw [hview] at hl
    exact hl
  | error e =>
    cases e with
    | atom e => exact .halt (.unfold rfl hn hu)
    | temporal f => exact absurd hu Formula.unfold_ne_temporal

theorem process_leads (hs : r.store.Sound) (j : Job) :
    Leads g (r.view (.process j :: l)) (fun _ => l) (process g j r) := by
  refine .of_ready fun ready => ?_
  obtain ⟨hj, hr⟩ := ready
  rcases result?_eq hr with hopen | hset
  · by_cases hv : j.visitKey ∈ (r.view []).visited
    · obtain ⟨r₁, h₁, hs₁, hv₁⟩ := does_visit hs j.visitKey
      have hview (ts : List Task) : r₁.view ts = r.view ts :=
        (hv₁ ts).trans (by simp only [if_pos (show j.visitKey ∈ (r.view ts).visited from hv)])
      rw [process, bind_run (isSettled_run_open hopen)]
      simp only [Bool.false_eq_true, if_false]
      rw [bind_run h₁]
      simp only [hv, decide_true, if_true]
      rw [note_bind]
      refine .move rfl (.repeated rfl hopen hv) ?_
      have hl := release_leads (g := g) (l := l)
        (r := r₁.note (.duplicateJob j.formula j.node)) hs₁ j.session
      change Leads g (r₁.view _) _ _ at hl
      rw [hview] at hl
      exact hl
    · exact process_fresh_leads hs hj hopen hv
  · rw [process, bind_run (isSettled_run_settled hset)]
    simp only [if_true]
    rw [note_bind]
    exact .move rfl (.stale rfl hset) (release_leads (r := r.note _) hs j.session)

theorem tell_leads (hs : r.store.Sound) (result : SessionResult) (i : RevisitId) :
    Leads g (r.view (.tell result i :: l)) (fun _ => l) (tell g result i r) := by
  refine .of_ready fun ready => ?_
  obtain ⟨e, he, hr⟩ := ready
  rw [tell, bind_run (revisit_run he)]
  by_cases hpend : result = .pending
  · refine .move rfl (.tellLate rfl he (.inl hpend)) ?_
    rw [hpend]
    exact release_leads hs _
  · obtain ⟨finding, hf⟩ := ofResult?_eq_some hpend
    rw [hf]
    have hrel : ∀ _ : Unit, ∀ r' : Run, r'.store.Sound →
        Leads g (r'.view (.release e.revisit.session :: l)) (fun _ => l)
          (release e.revisit.session r') := fun _ _ hs' => release_leads hs' _
    rcases result?_eq hr with hopen | hset
    · refine .move rfl (.tell rfl he hf hopen) (.bind
        (carryOut_leads (c := e.revisit.toContext) ?_) hrel)
      rw [reactTo_open hopen]
      exact react_leads hs (execute_leads hs _ _ _ _) _
    · refine .move rfl (.tellLate rfl he (.inr hset)) (.bind
        (carryOut_leads (c := e.revisit.toContext) ?_) hrel)
      rw [reactTo_settled hset]
      exact .inr ⟨hs, .refl _⟩

theorem tells_leads (hs : r.store.Sound) (result : SessionResult) (ws : List RevisitId) :
    Leads g (r.view (ws.map (.tell result) ++ l)) (fun _ => l)
      (ws.forM (tell g result) r) := by
  induction ws generalizing r with
  | nil => exact .inr ⟨hs, .refl _⟩
  | cons i ws ih =>
    exact (tell_leads hs result i).bind (k := fun _ => ws.forM (tell g result)) fun _ _ hs' => ih hs'

end RunM

/-- What a turn from `r` comes to: at least one move, or nothing to do, or a search that halts. -/
def Run.TurnsTo (g : Kripke) (limit : Option Nat) (r : Run) : EStateM.Result Halt Run Bool → Prop
  | .ok true r' => r'.store.Sound ∧ ∃ u, Move g (r.view []) u ∧ Works g u (r'.view [])
  | .ok false r' => r'.store.Sound ∧ (∀ ts, r'.view ts = r.view ts) ∧ (r.view []).resolved = [] ∧
    (limit = none → (r.view []).queue = [])
  | .error h _ => ∃ u, Moves g (r.view []) u ∧ u.Halts g h

namespace RunM

variable {r : Run} {l : Option Nat}

theorem turnsTo_of_leads {m : RunM Unit} {r₁ : Run} {u : Search} (hu : Move g (r.view []) u)
    (hm : Leads g u (fun _ => []) (m r₁)) :
    (∃ u, Moves g (r.view []) u ∧ ¬ u.Ready g) ∨
      r.TurnsTo g l ((do m; return true) r₁) := by
  rcases hm with ⟨v, hv, hr⟩ | hm
  · exact .inl ⟨v, .step hu hv, hr⟩
  · cases hr : m r₁ with
    | ok a r₂ =>
      rw [hr] at hm
      rw [bind_run hr]
      exact .inr ⟨hm.1, u, hu, hm.2⟩
    | error e r₂ =>
      rw [hr] at hm
      obtain ⟨v, hv, he⟩ := hm
      rw [bind_error hr]
      exact .inr ⟨v, .step hu hv, he⟩

theorem turn_notify {i : SessionId} {rest : List SessionId} {t : Session} {r₁ : Run}
    (hs₁ : r₁.store.Sound) (hr : (r.view []).resolved = i :: rest)
    (hv₁ : ∀ ts, r₁.view ts = { r.view ts with resolved := rest })
    (ht : (r.view []).session? i = some t) :
    (∃ u, Moves g (r.view []) u ∧ ¬ u.Ready g) ∨
      r.TurnsTo g l ((do notify g i; return true) r₁) := by
  obtain ⟨r₂, h₂, hs₂, hv₂⟩ := takeWaiters_run (t := t) hs₁ (by rw [hv₁]; exact ht)
  refine turnsTo_of_leads (.notify rfl hr ht) ?_
  rw [notify, bind_run (sessionResult_run (t := t) (by rw [hv₁]; exact ht)), bind_run h₂]
  have hl := tells_leads (g := g) (l := []) hs₂ t.result t.waiters.toList
  rw [hv₂, hv₁, List.append_nil] at hl
  exact hl

theorem does_reportProgress (hs : r.store.Sound) (interval : Nat) :
    r.Does (reportProgress interval) () id := by
  let r₁ := { r with processed := r.processed + 1 }
  have hrun : reportProgress interval r = (if 0 < interval ∧ r₁.processed % interval = 0 then
      note (.progress r₁.processed r₁.store.pendingSessions r₁.store.stats) else pure ()) r₁ := rfl
  split at hrun
  · exact ⟨r₁.note _, hrun, hs, fun _ => rfl⟩
  · exact ⟨r₁, hrun, hs, fun _ => rfl⟩

/-- A turn is made of moves, if the searches on the way are ready. -/
theorem turn_spec (hs : r.store.Sound) (settings : Settings) :
    (∃ u, Moves g (r.view []) u ∧ ¬ u.Ready g) ∨
      r.TurnsTo g settings.popLimit (turn g settings r) := by
  cases hr : (r.view []).resolved with
  | cons i rest =>
    by_cases hi : (r.view []).session? i = none
    · refine .inl ⟨r.view [], .refl _, fun ready => ?_⟩
      rw [Search.Ready] at ready
      exact ready i (by rw [hr]; rfl) hi
    · obtain ⟨t, ht⟩ := Option.ne_none_iff_exists'.mp hi
      obtain ⟨r₁, h₁, hs₁, hv₁⟩ := nextResolved_run hs hr
      rw [turn, bind_run h₁]
      exact turn_notify hs₁ hr hv₁ ht
  | nil =>
    rw [turn, bind_run (nextResolved_run_nil hr)]
    rcases nextPending_run hs settings.popLimit with
      ⟨r₁, h₁, hs₁, hv₁, hq⟩ | ⟨i, j, rest, r₁, h₁, hs₁, hj, hv₁⟩
    · simp only
      rw [bind_run h₁]
      exact .inr ⟨hs₁, hv₁, hr, hq⟩
    · simp only
      rw [bind_run h₁]
      simp only
      rw [bind_run hj]
      have hl : Leads g { r.view [] with queue := rest, tasks := [.process j] } (fun _ => [])
          ((do process g j; reportProgress settings.interval) r₁) := by
        have := process_leads (g := g) (l := []) hs₁ j
        rw [(hv₁ _).2] at this
        refine this.bind fun _ r₂ hs₂ => ?_
        exact .of_does (does_reportProgress hs₂ settings.interval) (.refl _)
      have := turnsTo_of_leads (l := settings.popLimit) (.take rfl hr (hv₁ []).1) hl
      rw [bind_assoc] at this
      exact this

end RunM

end CostCTL
