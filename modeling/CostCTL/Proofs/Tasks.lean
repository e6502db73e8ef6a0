import CostCTL.Proofs.Agenda
import CostCTL.Proofs.Determinism
import Mathlib.Data.List.Nodup

/-!
# The tasks that a check performs

A turn of a run is made of moves, and each of them does a task, but for the one that begins the
turn. `Search.Performs` keeps the tasks of a turn in the order in which they are done, and
`Checker.Performs` keeps them over all turns of a check. The lists are tied to the runs themselves:
the tasks of a turn lead from what is seen of the run before it to what is seen of the run after it,
and a move does all that its task stands for. A turn that left a task out would end in a run that no
list leads to.

All checks perform their tasks (`Checker.Iteration.exists_performs`,
`Checker.exists_performs_of_checkFrom`). Two facts about what is done are kept by all moves. A
revisit that was taken from a session is told the result of the session, once (`Search.Informs`). A
revisit that was marked as resumed had its obligation executed, once (`Search.Continues`).
-/

namespace CostCTL

variable {g : Kripke} {order : PendingOrder} {fs : List Formula} {past s t : Search} {r : Run}
  {done l : List Task} {i w : RevisitId} {v : Revisit}

/-- How far a check has come. -/
inductive Stage where
  /-- the requirements before the index are done -/
  | before (index : Nat)
  /-- turns are made on the requirement with the index -/
  | within (index : Nat)

/-- The runs that a check comes to, with the tasks that it has performed. A turn begins with a move
that finds no task, and is over when all tasks are done. -/
inductive Checker.Performs (c : Checker) (spec : Specification) :
    Stage → List Task → Run → Prop where
  | start : Performs c spec (.before 0) [] (.start c.store.reset)
  | seed {n : Nat} {f : Formula} {done : List Task} {r r₁ : Run}
      (past : Performs c spec (.before n) done r) (hf : spec[n]? = some f)
      (hs : RunM.seed c.graph f.universal (r.announce c.graph n f) = .ok () r₁) :
      Performs c spec (.within n) done r₁
  | turn {n : Nat} {done l : List Task} {r r₁ : Run} {s : Search}
      (past : Performs c spec (.within n) done r)
      (ht : RunM.turn c.graph c.settings r = .ok true r₁) (first : Move c.graph (r.view []) s)
      (hl : s.Performs c.graph l (r₁.view [])) : Performs c spec (.within n) (done ++ l) r₁
  | rest {n : Nat} {done : List Task} {r r₁ : Run} (past : Performs c spec (.within n) done r)
      (ht : RunM.turn c.graph c.settings r = .ok false r₁) :
      Performs c spec (.before (n + 1)) done r₁

/-! ### Checks perform tasks -/

namespace Checker

variable {c : Checker} {spec : Specification} {n k : Nat} {stage : Stage}

theorem Performs.exists_of_turns {r₁ : Run} (h : c.Performs spec (.within n) done r)
    (hc : r.OnCourse c.graph order fs past) (hk : Run.Turns c.graph c.settings k r r₁) :
    ∃ done', c.Performs spec (.within n) done' r₁ := by
  induction hk generalizing done with
  | zero => exact ⟨done, h⟩
  | @succ k r r₁ r₂ first rest ih =>
    have hturn := Course.steady.turnsTo hc.shows c.settings
    rw [first] at hturn
    obtain ⟨-, u, hu, l, hl⟩ := hturn
    exact ih (h.turn first hu hl) (Course.steady.turn hc.shows first).onCourse

/-- Requirements that hold were looked at by performing tasks. -/
theorem exists_performs_of_checkFrom (hl : c.settings.popLimit = none) (hn : n ≤ spec.length)
    (h : checkFrom c.graph c.settings 0 (spec.take n) (.start c.store.reset) = .ok () r) :
    ∃ done, c.Performs spec (.before n) done r := by
  induction n generalizing r with
  | zero =>
    cases h
    exact ⟨[], .start⟩
  | succ n ih =>
    obtain ⟨f, hf⟩ : ∃ f, spec[n]? = some f := ⟨_, List.getElem?_eq_getElem hn⟩
    obtain ⟨r₀, h₀, hsearch⟩ := exists_of_checkFrom_take hf h
    obtain ⟨done, hdone⟩ := ih (Nat.le_of_succ_le hn) h₀
    obtain ⟨hstart, hidle⟩ := Run.onCourse_start c.graph c.store
    obtain ⟨past, hc, hs⟩ := hstart.checkFrom_ok hidle hl h₀
    obtain ⟨r₁, hseed, hc₁⟩ := (hc.announce n f).seed (by rw [r₀.view_announce]; exact hs) f
    obtain ⟨k, r₂, hturns, hlast⟩ :=
      Run.Turns.exists_of_ok (RunM.turns_of_search_ok hseed hsearch)
    obtain ⟨done', hdone'⟩ := (hdone.seed hf hseed).exists_of_turns hc₁ hturns
    exact ⟨done', hdone'.rest hlast⟩

/-- If all requirements hold, tasks are performed only by the runs that the check goes through. -/
theorem Performs.onTheWay {z : Run} (h : c.Performs spec stage done r)
    (hz : checkFrom c.graph c.settings 0 spec (.start c.store.reset) = .ok () z) :
    match stage with
    | .before n => checkFrom c.graph c.settings 0 (spec.take n) (.start c.store.reset) = .ok () r
    | .within n => ∃ k, c.Iteration spec n k r := by
  induction h with
  | start => rfl
  | @seed n f done r r₁ _ hf hs ih => exact ⟨0, f, r, r₁, hf, ih, hs, .zero r₁⟩
  | turn _ ht _ _ ih =>
    obtain ⟨k, f, r₀, r₁, hf, hok, hseed, hturns⟩ := ih
    exact ⟨k + 1, f, r₀, r₁, hf, hok, hseed, hturns.concat ht⟩
  | @rest n done r r₁ _ ht ih =>
    obtain ⟨k, f, r₀, r₂, hf, hok, hseed, hturns⟩ := ih
    obtain ⟨r₃, h₃⟩ := exists_checkFrom_take hz (n + 1)
    obtain ⟨r₀', hok', hsearch⟩ := exists_of_checkFrom_take hf h₃
    cases hok.symm.trans hok'
    obtain ⟨m, hm⟩ := hturns.turns_of_ok (RunM.turns_of_search_ok hseed hsearch)
    -- the next turn finds nothing to do, so the search for the requirement ends there
    cases m with
    | zero => cases hm
    | succ m =>
      rw [RunM.turns, RunM.bind_run ht] at hm
      cases hm
      exact h₃

/-! ### What is kept by all moves -/

/-- A property of tasks done and searches holds of all runs of a check if it holds at the start, and
is kept by every move and when a requirement is put on the worklist. -/
theorem Performs.induct {Q : List Task → Search → Prop} (hl : c.settings.popLimit = none)
    (h : c.Performs spec stage done r) (start : Q [] (.start c.store.config.order))
    (seed : ∀ done s f, Q done s → Q done (s.seed c.graph f))
    (move : ∀ fs past done s t, Course c.graph c.store.config.order fs past s → Move c.graph s t →
      Q done s → Q (done ++ s.tasks.take 1) t) : Q done (r.view []) := by
  suffices hall : Q done (r.view []) ∧
      ∃ fs past, r.OnCourse c.graph c.store.config.order fs past ∧
        ∀ n, stage = .before n → (r.view []).Idle from hall.1
  have hmoves {fs : List Formula} {past s t : Search} {done l : List Task}
      (hc : Course c.graph c.store.config.order fs past s) (hl : s.Performs c.graph l t)
      (hs : Q done s) : Q (done ++ l) t := by
    induction hl generalizing done with
    | nil => rwa [List.append_nil]
    | cons ht first _ ih =>
      have hnext := move _ _ _ _ _ hc first hs
      rw [ht] at hnext
      rw [List.append_cons]
      exact ih (hc.move first) hnext
  induction h with
  | start =>
    obtain ⟨hc, hs⟩ := Run.onCourse_start c.graph c.store
    refine ⟨?_, [], _, hc, fun _ _ => hs⟩
    rw [hc.course.eq_start.2]
    exact start
  | @seed n f done r r₁ _ _ hs ih =>
    obtain ⟨hQ, fs, past, hc, hidle⟩ := ih
    have hc := hc.announce n f
    obtain ⟨r₂, h₂, -, hv⟩ := RunM.seed_run hc.sound c.graph f.universal
    obtain ⟨r₂', h₂', hc₂⟩ := hc.seed (by rw [r.view_announce]; exact hidle n rfl) f
    cases hs.symm.trans h₂
    cases hs.symm.trans h₂'
    rw [r.view_announce] at hv
    refine ⟨?_, _, _, hc₂, fun _ hn => by cases hn⟩
    rw [hv]
    exact seed done _ _ hQ
  | turn _ ht first hl ih =>
    obtain ⟨hQ, fs, past, hc, -⟩ := ih
    have hfirst := move _ _ _ _ _ hc.course first hQ
    rw [show (Run.view _ []).tasks = [] from rfl, List.take_nil, List.append_nil] at hfirst
    exact ⟨hmoves (hc.course.move first) hl hfirst, fs, past,
      (Course.steady.turn hc.shows ht).onCourse, fun _ hn => by cases hn⟩
  | rest _ ht ih =>
    obtain ⟨hQ, fs, past, hc, -⟩ := ih
    have hturn := Course.steady.turnsTo hc.shows c.settings
    rw [ht] at hturn
    obtain ⟨hs, hview, hres, hq⟩ := hturn
    rw [hview]
    exact ⟨hQ, fs, past, ⟨hs, by rw [hview]; exact hc.course⟩, fun _ _ => ⟨rfl, hres, hq hl⟩⟩

end Checker

/-! ### Waiters are told once -/

/-- The task tells the revisit a result. -/
def Task.tells (w : RevisitId) : Task → Bool
  | .tell _ k => k = w
  | _ => false

theorem Task.tells_of_isTell {x : Task} (h : x.isTell = false) (w : RevisitId) :
    x.tells w = false := by
  cases x with
  | tell => cases h
  | process | execute | resume | fail | release => rfl

/-- What waiters are told by the tasks that are done and those left in the turn. -/
structure Search.Informs (done : List Task) (s : Search) : Prop where
  /-- a waiter is told once, what its session came to -/
  taken : ∀ p ∈ s.told, ∀ w ∈ p.2, ∃ result, s.result? (some p.1) = some result ∧
    result ≠ .pending ∧ (done ++ s.tasks).filter (·.tells w) = [.tell result w]
  /-- nobody else is told anything -/
  untold : ∀ w, w ∉ s.heard → (done ++ s.tasks).filter (·.tells w) = []

theorem Task.filter_tells {ws : List RevisitId} (result : SessionResult) (hn : ws.Nodup)
    (hw : w ∈ ws) : (ws.map (Task.tell result)).filter (·.tells w) = [.tell result w] := by
  have hp : ((·.tells w) ∘ Task.tell result : RevisitId → Bool) = (· == w) := by
    funext k
    simp [Function.comp, Task.tells, Bool.beq_eq_decide_eq]
  rw [List.filter_map, hp, List.filter_beq, List.count_eq_one_of_mem hn hw]
  rfl

theorem Task.filter_tells_eq_nil {ws : List RevisitId} (result : SessionResult) (hw : w ∉ ws) :
    (ws.map (Task.tell result)).filter (·.tells w) = [] := by
  rw [List.filter_eq_nil_iff]
  intro x hx
  obtain ⟨k, hk, rfl⟩ := List.mem_map.mp hx
  simp only [Task.tells, decide_eq_true_eq]
  rintro rfl
  exact hw hk

/-- A move that takes no waiters leaves what anybody is told. -/
theorem Search.Informs.of_told (h : s.Informs done) (he : s.Extends t) (htold : t.told = s.told)
    (htasks : ∀ w, (s.tasks.take 1 ++ t.tasks).filter (·.tells w) = s.tasks.filter (·.tells w)) :
    t.Informs (done ++ s.tasks.take 1) := by
  have hfilter (w : RevisitId) : (done ++ s.tasks.take 1 ++ t.tasks).filter (·.tells w) =
      (done ++ s.tasks).filter (·.tells w) := by
    rw [List.append_assoc, List.filter_append, htasks, List.filter_append]
  refine ⟨fun p hp w hw => ?_, fun w hw => ?_⟩
  · obtain ⟨result, hr, hne, hlist⟩ := h.taken p (htold ▸ hp) w hw
    obtain ⟨result', hr', heq⟩ := he.result _ _ hr
    cases heq hne
    exact ⟨_, hr', hne, (hfilter w).trans hlist⟩
  · rw [Search.heard, htold] at hw
    exact (hfilter w).trans (h.untold w hw)

/-- The waiters of a session were parked until they are taken, so they were not told before. -/
theorem Search.Informs.notify (h : s.Informs done) (hv : s.Valid g) (ha : s.Accounts)
    (ht : s.tasks = []) {k : SessionId} {rest : List SessionId} {x : Session}
    (hr : s.resolved = k :: rest) (hk : s.session? k = some x) :
    { s.dismiss k with
      resolved := rest
      told := s.told ++ [(k, x.waiters.toList)]
      tasks := x.waiters.toList.map (.tell x.result) : Search }.Informs done := by
  obtain ⟨hnodup, -, hdisjoint⟩ := List.nodup_append.mp ha.once
  have hparked {w : RevisitId} (hw : w ∈ x.waiters.toList) : w ∈ s.parked :=
    List.mem_flatMap.mpr ⟨x, Numbered.mem_of_get? hk, hw⟩
  have hws : x.waiters.toList.Nodup :=
    (List.nodup_flatMap.mp hnodup).1 x (Numbered.mem_of_get? hk)
  have hresult (i : Option SessionId) : (s.dismiss k).result? i = s.result? i :=
    s.result?_dismiss k i
  have hdone (w : RevisitId) : (done ++ s.tasks).filter (·.tells w) = done.filter (·.tells w) := by
    rw [ht, List.append_nil]
  refine ⟨fun p hp w hw => ?_, fun w hw => ?_⟩
  · rcases List.mem_append.mp hp with hp | hp
    · obtain ⟨result, hres, hne, hlist⟩ := h.taken p hp w hw
      refine ⟨result, (hresult _).trans hres, hne, ?_⟩
      have hnot : w ∉ x.waiters.toList := fun hmem =>
        hdisjoint w (hparked hmem) w (List.mem_flatMap.mpr ⟨p, hp, hw⟩) rfl
      rw [List.filter_append, Task.filter_tells_eq_nil x.result hnot, List.append_nil, ← hdone]
      exact hlist
    · cases List.mem_singleton.mp hp
      obtain ⟨result, hres, hne⟩ := hv.resolved k (by rw [hr]; exact List.mem_cons_self)
      have hx : s.result? (some k) = some x.result := by rw [Search.result?, hk]; rfl
      cases hx.symm.trans hres
      have hnot : w ∉ s.heard := fun hmem => hdisjoint w (hparked hw) w hmem rfl
      refine ⟨x.result, (hresult _).trans hx, hne, ?_⟩
      rw [List.filter_append, Task.filter_tells x.result hws hw, ← hdone, h.untold w hnot]
      rfl
  · rw [Search.heard, List.flatMap_append, List.mem_append, not_or] at hw
    have hnot : w ∉ x.waiters.toList := by simpa using hw.2
    rw [List.filter_append, Task.filter_tells_eq_nil x.result hnot, List.append_nil, ← hdone]
    exact h.untold w hw.1

theorem Move.informs (h : Move g s t) (hv : s.Valid g) (ha : s.Accounts) (hi : s.Informs done) :
    t.Informs (done ++ s.tasks.take 1) := by
  have he := h.extends
  by_cases hts : s.tasks = []
  · rcases h.of_nil hts with ⟨k, rest, x, hres, hk, rfl⟩ | ⟨j, rest, -, -, rfl⟩
    · rw [hts, List.take_nil, List.append_nil]
      exact hi.notify hv ha hts hres hk
    · refine hi.of_told he rfl fun w => ?_
      rw [hts]
      rfl
  · obtain ⟨x, ts, hts⟩ := List.exists_cons_of_ne_nil hts
    obtain ⟨htold, new, htasks, hnew⟩ := h.tasks_cons hts
    have hnone (w : RevisitId) : new.filter (·.tells w) = [] :=
      List.filter_eq_nil_iff.mpr fun y hy => by simp [Task.tells_of_isTell (hnew y hy)]
    refine hi.of_told he htold fun w => ?_
    rw [hts, htasks, List.filter_append, List.filter_append, hnone, List.nil_append]
    exact (List.filter_append [x] ts).symm

theorem Checker.Performs.informs {c : Checker} {spec : Specification} {stage : Stage}
    (hl : c.settings.popLimit = none) (h : c.Performs spec stage done r) :
    (r.view []).Informs done := by
  refine h.induct hl ⟨fun p hp => ?_, fun w _ => rfl⟩ (fun done s f hs => ⟨hs.taken, hs.untold⟩)
    fun fs past done s t hc hm hs => ?_
  · cases hp
  · exact hm.informs hc.valid_accounts.1 hc.valid_accounts.2 hs

/-! ### Obligations are executed once -/

/-- The task at the position resumes the revisit, and the next one executes its obligation, in its
context. -/
def Revisit.ExecutedAt (v : Revisit) (i : RevisitId) (l : List Task) (k : Nat) : Prop :=
  ∃ n c, l[k]? = some (.resume (n + 1) c (some i)) ∧
    l[k + 1]? = some (.execute n v.toContext v.parent v.resume)

/-- What is executed for a revisit by the tasks that are done and the one that comes next. -/
structure Search.Continues (i : RevisitId) (done : List Task) (s : Search) : Prop where
  /-- before a revisit is resumed, no obligation is executed for it -/
  waiting : (∀ e, s.record? i = some e → e.resumed = false) →
    ∀ (v : Revisit) k, ¬ v.ExecutedAt i (done ++ s.tasks.take 1) k
  /-- afterwards its obligation was executed at one position, and none at any other -/
  resumed : ∀ v, s.record? i = some ⟨v, true⟩ → ∃ k, v.ExecutedAt i (done ++ s.tasks.take 1) k ∧
    ∀ (v' : Revisit) k', v'.ExecutedAt i (done ++ s.tasks.take 1) k' → k' = k

theorem Revisit.ExecutedAt.append {k : Nat} (h : v.ExecutedAt i l k) (m : List Task) :
    v.ExecutedAt i (l ++ m) k := by
  obtain ⟨n, c, hk, hn⟩ := h
  refine ⟨n, c, ?_, ?_⟩
  · rw [List.getElem?_append_left (List.getElem?_eq_some_iff.mp hk).1, hk]
  · rw [List.getElem?_append_left (List.getElem?_eq_some_iff.mp hn).1, hn]

/-- A move adds the next task, which is the obligation of the revisit only if that is resumed. -/
theorem Move.executedAt_cases {k : Nat} (h : Move g s t)
    (hk : v.ExecutedAt i (done ++ s.tasks.take 1 ++ t.tasks.take 1) k) :
    v.ExecutedAt i (done ++ s.tasks.take 1) k ∨ k = done.length ∧
      ∃ n c ts ts', s.tasks = .resume (n + 1) c (some i) :: ts ∧
        t.tasks = .execute n v.toContext v.parent v.resume :: ts' := by
  obtain ⟨n, c, hk, hn⟩ := hk
  by_cases hlt : k + 1 < (done ++ s.tasks.take 1).length
  · rw [List.getElem?_append_left hlt] at hn
    rw [List.getElem?_append_left (Nat.lt_of_succ_lt hlt)] at hk
    exact .inl ⟨n, c, hk, hn⟩
  -- the second of the two is the new one
  have hle := (List.getElem?_eq_some_iff.mp hn).1
  rw [List.getElem?_append_right (Nat.le_of_not_lt hlt)] at hn
  cases htt : t.tasks with
  | nil =>
    rw [htt] at hn
    cases hn
  | cons y ts' =>
    have hlast : k + 1 = (done ++ s.tasks.take 1).length := by
      rw [htt, List.length_append] at hle
      simp only [List.take_succ_cons, List.take_zero, List.length_singleton] at hle
      omega
    rw [htt, hlast, Nat.sub_self] at hn
    obtain rfl : y = .execute n v.toContext v.parent v.resume := Option.some.inj hn
    rw [List.getElem?_append_left (by omega)] at hk
    by_cases hts : s.tasks = []
    · rcases h.of_nil hts with ⟨m, rest, x, -, -, rfl⟩ | ⟨j, rest, -, -, rfl⟩
      · replace htt : x.waiters.toList.map (Task.tell x.result) = _ := htt
        obtain ⟨w, ws, -, hw, -⟩ := List.map_eq_cons_iff.mp htt
        cases hw
      · cases htt
    · obtain ⟨x, ts, hts⟩ := List.exists_cons_of_ne_nil hts
      have hdone : k = done.length := by
        rw [hts] at hlast
        simpa using hlast
      rw [hts, hdone, List.take_succ_cons, List.take_zero, List.getElem?_concat_length] at hk
      cases hk
      exact .inr ⟨hdone, n, c, ts, ts', hts, rfl⟩

/-- The revisit that work is linked to is for the same session, which is open. -/
theorem Search.Working.not_settled {n base : Nat} {c : Context} {ts : List Task} {f : Formula}
    {b : Bool} (h : s.Working) (hi : s.All base (s.InScope f)) (hts : s.tasks = .resume n c (some i) :: ts)
    (hrec : s.record? i = some ⟨v, b⟩) : ¬ s.Settled v.session := by
  intro hs
  obtain ⟨e, he, hsession, -⟩ := (hi.head hts _ rfl).2 i rfl
  cases hrec.symm.trans he
  exact hs.not_open (hsession ▸ h _ _ _ hts rfl)

/-- An obligation comes next only when the revisit is resumed for the first time. -/
theorem Move.record?_of_execute {n m : Nat} {c c' : Context} {ts ts' : List Task}
    {link : Option RevisitId} {o : Obligation} (h : Move g s t) (hs : Task.Orderly s.tasks)
    (hts : s.tasks = .resume m c (some i) :: ts) (htt : t.tasks = .execute n c' link o :: ts') :
    ∃ v, s.record? i = some ⟨v, false⟩ ∧ t.record? i = some ⟨v, true⟩ := by
  rw [hts] at hs
  obtain ⟨l, rfl, -⟩ := hs.tail_work rfl
  rcases h.of_resume hts with ⟨hlink, -⟩ | ⟨m, k, ⟨v, b⟩, -, hlink, hk, h⟩
  · cases hlink
  rcases h with ⟨-, rfl⟩ | ⟨-, -, rfl⟩ | ⟨hb, -, rfl⟩
  · cases htt
  · cases htt
  · cases hlink
    cases hb
    refine ⟨v, hk, ?_⟩
    change (s.markResumed i).record? i = _
    rw [Search.record?_markResumed, if_pos rfl, hk]
    rfl

theorem Move.continues (h : Move g s t) (hc : Course g order fs past s)
    (hs : s.Continues i done) : t.Continues i (done ++ s.tasks.take 1) := by
  have he := h.extends
  refine ⟨fun hwait v k hk => ?_, fun v hv => ?_⟩
  · have hwait' : ∀ e, s.record? i = some e → e.resumed = false := by
      intro e hrec
      obtain ⟨b, hb, hr⟩ := he.entry i e hrec
      have hfalse : b = false := hwait _ hb
      cases hre : e.resumed with
      | false => rfl
      | true => exact (hr hre).symm.trans hfalse
    rcases h.executedAt_cases hk with hk | ⟨-, n, c, ts, ts', hts, htt⟩
    · exact hs.waiting hwait' v k hk
    · obtain ⟨v', -, hv'⟩ := h.record?_of_execute hc.orderly hts htt
      cases hwait _ hv'
  · rcases h.resumed_cases hv rfl with hrec | ⟨n, c, ts, hts, hrec, hlate | htt⟩
    · obtain ⟨k, hk, hunique⟩ := hs.resumed v hrec
      refine ⟨k, hk.append _, fun v' k' hk' => ?_⟩
      rcases h.executedAt_cases hk' with hk' | ⟨-, n, c, ts, ts', hts, htt⟩
      · exact hunique v' k' hk'
      · obtain ⟨v'', hrec'', -⟩ := h.record?_of_execute hc.orderly hts htt
        cases hrec.symm.trans hrec''
    · exact absurd hlate (hc.working.not_settled hc.inScope hts hrec)
    · have hwait : ∀ e, s.record? i = some e → e.resumed = false := by
        intro e hrec'
        cases hrec.symm.trans hrec'
        rfl
      refine ⟨done.length, ⟨n, c, ?_, ?_⟩, fun v' k' hk' => ?_⟩
      · rw [hts]
        simp
      · rw [hts, htt]
        simp
      · rcases h.executedAt_cases hk' with hk' | ⟨rfl, -⟩
        · exact absurd hk' (hs.waiting hwait v' k')
        · rfl

theorem Checker.Performs.continues {c : Checker} {spec : Specification} {stage : Stage}
    (hl : c.settings.popLimit = none) (h : c.Performs spec stage done r) (i : RevisitId) :
    (r.view []).Continues i done := by
  refine h.induct hl ⟨fun _ v k hk => ?_, fun v hv => ?_⟩
    (fun done s f hs => ⟨hs.waiting, hs.resumed⟩)
    fun fs past done s t hc hm hs => hm.continues hc hs
  · obtain ⟨n, c, hk, -⟩ := hk
    cases hk
  · obtain ⟨n, -, hn⟩ := Numbered.get?_eq_some_iff.mp hv
    cases hn

end CostCTL
