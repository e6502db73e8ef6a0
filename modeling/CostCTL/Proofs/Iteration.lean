import CostCTL.Proofs.Refine
import CostCTL.Proofs.Scope

/-!
# From turns to checks

The runs that a check goes through, turn by turn (`Checker.Iteration`), show searches on the course
of the check (`Course`). What is known of all searches on the course is so known of every run, and of
what the check answers.
-/

namespace CostCTL

variable {g : Kripke} {settings : Settings} {order : PendingOrder} {fs : List Formula}
  {past s t : Search} {r r' : Run}

/-- So many turns lead from one run to the other. -/
inductive Run.Turns (g : Kripke) (settings : Settings) : Nat → Run → Run → Prop where
  | zero (r : Run) : Turns g settings 0 r r
  | succ {k : Nat} {r r₁ r₂ : Run} (first : RunM.turn g settings r = .ok true r₁)
      (rest : Turns g settings k r₁ r₂) : Turns g settings (k + 1) r r₂

/-- Put the first jobs of a requirement on the worklist. -/
def RunM.seed (g : Kripke) (f : Formula) : RunM Unit := do
  g.initial.toList.forM fun node => spawn (.root node f)
  modify fun r => { r with processed := 0 }

/-- The run at the start of an iteration: `k` turns were made on the requirement with the index. -/
def Checker.Iteration (c : Checker) (spec : Specification) (index k : Nat) (r : Run) : Prop :=
  ∃ f r₀ r₁, spec[index]? = some f ∧
    checkFrom c.graph c.settings 0 (spec.take index) (.start c.store.reset) = .ok () r₀ ∧
    RunM.seed c.graph f.universal (r₀.announce c.graph index f) = .ok () r₁ ∧
    Run.Turns c.graph c.settings k r₁ r

/-! ### Turns within a property -/

/-- The property makes a search ready for its next move, which keeps it. -/
structure Steady (g : Kripke) (P : Search → Prop) : Prop where
  ready : ∀ {s : Search}, P s → s.Ready g
  move : ∀ {s t : Search}, P s → Move g s t → P t

/-- The run shows a search with the property. -/
structure Run.Shows (P : Search → Prop) (r : Run) : Prop where
  sound : r.store.Sound
  search : P (r.view [])

namespace Steady

variable {P : Search → Prop} (hP : Steady g P)
include hP

theorem moves (hs : P s) (hm : Moves g s t) : P t := by
  induction hm with
  | refl => exact hs
  | step first _ ih => exact ih (hP.move hs first)

theorem turnsTo (h : r.Shows P) (settings : Settings) :
    r.TurnsTo g settings.popLimit (RunM.turn g settings r) := by
  rcases RunM.turn_spec (g := g) h.sound settings with ⟨u, hu, hready⟩ | hturn
  · exact absurd (hP.ready (hP.moves h.search hu)) hready
  · exact hturn

theorem turn (h : r.Shows P) (ht : RunM.turn g settings r = .ok true r') : r'.Shows P := by
  have hturn := hP.turnsTo h settings
  rw [ht] at hturn
  obtain ⟨hs, u, hu, hm⟩ := hturn
  exact ⟨hs, hP.moves (hP.move h.search hu) hm.moves⟩

theorem turns (h : r.Shows P) {k : Nat} (ht : Run.Turns g settings k r r') : r'.Shows P := by
  induction ht with
  | zero => exact h
  | succ first _ ih => exact ih (hP.turn h first)

/-- Taking turns until there is nothing to do ends so, or with a search that halts, or for want of
turns. -/
theorem turns_result (h : r.Shows P) (hl : settings.popLimit = none) (n : Nat) :
    match RunM.turns g settings n r with
    | .ok _ r' => r'.Shows P ∧ (r'.view []).Idle
    | .error e _ => (e = .stop (.fault .outOfTurns) ∧ ∃ r', Run.Turns g settings n r r') ∨
      ∃ u, P u ∧ u.Halts g e := by
  induction n generalizing r with
  | zero => exact .inl ⟨rfl, r, .zero r⟩
  | succ n ih =>
    have hturn := hP.turnsTo h settings
    cases ht : RunM.turn g settings r with
    | ok b r₁ =>
      rw [RunM.turns, RunM.bind_run ht]
      rw [ht] at hturn
      cases b with
      | true =>
        have ih := ih (hP.turn h ht)
        simp only [if_true]
        revert ih
        cases RunM.turns g settings n r₁ with
        | ok a r₂ => exact id
        | error e r₂ =>
          rintro (⟨he, r₃, h₃⟩ | hu)
          · exact .inl ⟨he, r₃, .succ ht h₃⟩
          · exact .inr hu
      | false =>
        obtain ⟨hs, hview, hres, hq⟩ := hturn
        refine ⟨⟨hs, by rw [hview]; exact h.search⟩, ?_⟩
        rw [hview]
        exact ⟨rfl, hres, hq hl⟩
    | error e r₁ =>
      rw [RunM.turns, RunM.bind_error ht]
      rw [ht] at hturn
      obtain ⟨u, hu, he⟩ := hturn
      exact .inr ⟨u, hP.moves h.search hu, he⟩

theorem moves_of_ok (h : r.Shows P) {n : Nat} {a : Unit}
    (ho : RunM.turns g settings n r = .ok a r') : Moves g (r.view []) (r'.view []) := by
  induction n generalizing r with
  | zero => cases ho
  | succ n ih =>
    have hturn := hP.turnsTo h settings
    cases ht : RunM.turn g settings r with
    | ok b r₁ =>
      rw [RunM.turns, RunM.bind_run ht] at ho
      rw [ht] at hturn
      cases b with
      | true =>
        simp only [if_true] at ho
        obtain ⟨-, u, hu, hm⟩ := hturn
        exact .step hu (hm.moves.trans (ih (hP.turn h ht) ho))
      | false =>
        cases ho
        obtain ⟨-, hview, -⟩ := hturn
        rw [hview]
        exact .refl _
    | error e r₁ =>
      rw [RunM.turns, RunM.bind_error ht] at ho
      cases ho

end Steady

/-! ### Runs on the course of a check -/

/-- The run shows a search on the course of a check. -/
structure Run.OnCourse (g : Kripke) (order : PendingOrder) (fs : List Formula) (past : Search)
    (r : Run) : Prop where
  sound : r.store.Sound
  course : Course g order fs past (r.view [])

theorem Course.ready (h : Course g order fs past s) : s.Ready g :=
  h.valid_accounts.1.ready h.valid_accounts.2

theorem Course.steady : Steady g (Course g order fs past) := ⟨Course.ready, Course.move⟩

theorem Course.moves (h : Course g order fs past s) (hm : Moves g s t) :
    Course g order fs past t := Course.steady.moves h hm

theorem Run.OnCourse.shows (h : r.OnCourse g order fs past) :
    r.Shows (Course g order fs past) := ⟨h.sound, h.course⟩

theorem Run.Shows.onCourse (h : r.Shows (Course g order fs past)) :
    r.OnCourse g order fs past := ⟨h.sound, h.search⟩

theorem Run.OnCourse.turns (h : r.OnCourse g order fs past) {k : Nat}
    (ht : Run.Turns g settings k r r') : r'.OnCourse g order fs past :=
  (Course.steady.turns h.shows ht).onCourse

/-- The first jobs of a requirement are seen at the end of the queue. -/
theorem RunM.seed_run (hs : r.store.Sound) (g : Kripke) (f : Formula) :
    ∃ r₁, RunM.seed g f r = .ok () r₁ ∧ r₁.store.Sound ∧ r₁.view [] = (r.view []).seed g f := by
  have hspawn : r.Does ((g.initial.toList.map (Job.root · f)).forM RunM.spawn) ()
      (·.push none (g.initial.toList.map (Job.root · f))) :=
    RunM.does_spawnAll hs
      (fun j hj => by obtain ⟨i, -, rfl⟩ := List.mem_map.mp hj; rfl) (by simp [Search.result?])
  obtain ⟨r₁, h₁, hs₁, hv₁⟩ := hspawn
  have hmap (l : List NodeId) : (l.map (Job.root · f)).forM RunM.spawn =
      l.forM fun node => RunM.spawn (.root node f) := by
    induction l with
    | nil => rfl
    | cons i l ih => exact congrArg (RunM.spawn (.root i f) >>= fun _ => ·) ih
  rw [hmap] at h₁
  exact ⟨{ r₁ with processed := 0 }, RunM.bind_run h₁, hs₁, hv₁ []⟩

/-- A requirement may start when nothing is left to do for the one before. -/
theorem Run.OnCourse.seed (h : r.OnCourse g order fs past) (hs : (r.view []).Idle) (f : Formula) :
    ∃ r₁, RunM.seed g f.universal r = .ok () r₁ ∧ r₁.OnCourse g order (f :: fs) (r.view []) := by
  obtain ⟨r₁, h₁, hs₁, hv₁⟩ := RunM.seed_run h.sound g f.universal
  refine ⟨r₁, h₁, hs₁, ?_⟩
  rw [hv₁]
  exact h.course.seed hs f

/-! ### Turns on the way -/

/-- Turns that were made need not be made again. -/
theorem Run.Turns.turns_add {k : Nat} (h : Run.Turns g settings k r r') (m : Nat) :
    RunM.turns g settings (k + m) r = RunM.turns g settings m r' := by
  induction h with
  | zero r => rw [Nat.zero_add]
  | @succ k r r₁ r₂ first rest ih =>
    rw [Nat.add_right_comm, RunM.turns, RunM.bind_run first]
    simp only [if_true]
    exact ih

theorem Run.Turns.exists_of_le {k n : Nat} (h : Run.Turns g settings k r r') (hn : n ≤ k) :
    ∃ r₁, Run.Turns g settings n r r₁ := by
  induction h generalizing n with
  | zero r => exact ⟨r, Nat.le_zero.mp hn ▸ .zero r⟩
  | @succ k r r₁ r₂ first rest ih =>
    cases n with
    | zero => exact ⟨r, .zero r⟩
    | succ n =>
      obtain ⟨r₃, h₃⟩ := ih (Nat.le_of_succ_le_succ hn)
      exact ⟨r₃, .succ first h₃⟩

theorem Run.Turns.concat {k : Nat} {r₁ : Run} (h : Run.Turns g settings k r r₁)
    (last : RunM.turn g settings r₁ = .ok true r') : Run.Turns g settings (k + 1) r r' := by
  induction h with
  | zero r => exact .succ last (.zero r')
  | succ first _ ih => exact .succ first (ih last)

/-- Turns are made until there is nothing to do. -/
theorem Run.Turns.exists_of_ok {n : Nat} {a : Unit} (ho : RunM.turns g settings n r = .ok a r') :
    ∃ k r₁, Run.Turns g settings k r r₁ ∧ RunM.turn g settings r₁ = .ok false r' := by
  induction n generalizing r with
  | zero => cases ho
  | succ n ih =>
    cases ht : RunM.turn g settings r with
    | ok b r₁ =>
      rw [RunM.turns, RunM.bind_run ht] at ho
      cases b with
      | true =>
        obtain ⟨k, r₂, hk, hlast⟩ := ih ho
        exact ⟨k + 1, r₂, .succ ht hk, hlast⟩
      | false =>
        cases ho
        exact ⟨0, r, .zero r, ht⟩
    | error e r₁ =>
      rw [RunM.turns, RunM.bind_error ht] at ho
      cases ho

/-- A search that ends makes the turns on its way. -/
theorem Run.Turns.turns_of_ok {k n : Nat} {r₁ r₂ : Run} {a : Unit}
    (h : Run.Turns g settings k r r₁) (ho : RunM.turns g settings n r = .ok a r₂) :
    ∃ m, RunM.turns g settings m r₁ = .ok a r₂ := by
  rcases Nat.le_total k n with hk | hn
  · obtain ⟨m, rfl⟩ := Nat.exists_eq_add_of_le hk
    exact ⟨m, h.turns_add m ▸ ho⟩
  · obtain ⟨r₃, h₃⟩ := h.exists_of_le hn
    have := h₃.turns_add 0
    rw [Nat.add_zero, ho] at this
    cases this

/-- When nothing is left to do, no session is left without a result. -/
theorem Run.OnCourse.pendingSessions (h : r.OnCourse g order fs past) (hs : (r.view []).Idle) :
    r.store.pendingSessions = 0 := by
  obtain ⟨hv, ha⟩ := h.course.valid_accounts
  rw [Store.pendingSessions, Array.countP_eq_zero]
  intro u hu
  obtain ⟨n, hn⟩ := Numbered.exists_get?_of_mem (Array.mem_toList_iff.mpr hu)
  have hne : u.result ≠ .pending := h.course.inScope.settled_of_idle hv ha hs (i := ⟨n⟩) hn
  rw [RunM.isPending_eq_false_iff.mpr hne]
  exact Bool.false_ne_true

theorem RunM.search_eq (g : Kripke) (settings : Settings) (f : Formula) :
    RunM.search g settings f = (do
      RunM.seed g f
      RunM.turns g settings (g.turnBound f)
      let pending := (← get).store.pendingSessions
      if 0 < pending then RunM.error (.stalled pending)) := by
  simp [RunM.search, RunM.seed]

/-- What a search for a requirement comes to. -/
theorem Run.OnCourse.search_result (h : r.OnCourse g order fs past) (hs : (r.view []).Idle)
    (hl : settings.popLimit = none) (f : Formula) :
    match RunM.search g settings f.universal r with
    | .ok _ r' => r'.OnCourse g order (f :: fs) (r.view []) ∧ (r'.view []).Idle
    | .error e _ => (e = .stop (.fault .outOfTurns) ∧ ∃ r₁ r₂, RunM.seed g f.universal r = .ok () r₁ ∧
        Run.Turns g settings (g.turnBound f.universal) r₁ r₂) ∨
      ∃ u, Course g order (f :: fs) (r.view []) u ∧ u.Halts g e := by
  obtain ⟨r₁, h₁, hc₁⟩ := h.seed hs f
  rw [RunM.search_eq, RunM.bind_run h₁]
  have hturns := Course.steady.turns_result hc₁.shows hl (g.turnBound f.universal)
  cases ht : RunM.turns g settings (g.turnBound f.universal) r₁ with
  | ok a r₂ =>
    rw [ht] at hturns
    have hget : (get : RunM Run) r₂ = .ok r₂ r₂ := rfl
    rw [RunM.bind_run ht, RunM.bind_run hget]
    simp only [hturns.1.onCourse.pendingSessions hturns.2, Nat.lt_irrefl, if_false]
    exact ⟨hturns.1.onCourse, hturns.2⟩
  | error e r₂ =>
    rw [ht] at hturns
    rw [RunM.bind_error ht]
    rcases hturns with ⟨he, r₃, h₃⟩ | hu
    · exact .inl ⟨he, r₁, r₃, h₁, h₃⟩
    · exact .inr hu

/-- A search that ends takes turns from its first jobs on. -/
theorem RunM.turns_of_search_ok {r₁ : Run} {f : Formula} {a : Unit}
    (hseed : RunM.seed g f r = .ok () r₁) (ho : RunM.search g settings f r = .ok a r') :
    RunM.turns g settings (g.turnBound f) r₁ = .ok () r' := by
  rw [RunM.search_eq, RunM.bind_run hseed] at ho
  cases ht : RunM.turns g settings (g.turnBound f) r₁ with
  | ok b r₂ =>
    have hget : (get : RunM Run) r₂ = .ok r₂ r₂ := rfl
    rw [RunM.bind_run ht, RunM.bind_run hget] at ho
    split at ho
    · cases ho
    · cases ho
      rfl
  | error e r₂ =>
    rw [RunM.bind_error ht] at ho
    cases ho

theorem Run.view_announce (r : Run) (g : Kripke) (index : Nat) (f : Formula) (ts : List Task) :
    (r.announce g index f).view ts = r.view ts := by
  unfold Run.announce
  dsimp only
  split <;> rfl

theorem Run.OnCourse.announce (h : r.OnCourse g order fs past) (index : Nat) (f : Formula) :
    (r.announce g index f).OnCourse g order fs past := by
  refine ⟨?_, by rw [r.view_announce]; exact h.course⟩
  unfold Run.announce
  dsimp only
  split <;> exact h.sound

/-- What a requirement's check comes to. -/
theorem Run.OnCourse.requirement_result (h : r.OnCourse g order fs past) (hs : (r.view []).Idle)
    (hl : settings.popLimit = none) (index : Nat) (f : Formula) :
    match checkRequirement g settings index f r with
    | .ok _ r' => r'.OnCourse g order (f :: fs) (r.view []) ∧ (r'.view []).Idle
    | .error e _ => (e = .fault .outOfTurns ∧ ∃ r₁ r₂,
        RunM.seed g f.universal (r.announce g index f) = .ok () r₁ ∧
        Run.Turns g settings (g.turnBound f.universal) r₁ r₂) ∨
      ∃ u, Course g order (f :: fs) (r.view []) u ∧
        ((∃ x, e = .error (.unsatisfied index f x) ∧ u.Halts g (.refuted x)) ∨
          u.Halts g (.stop e)) := by
  have hsearch := (h.announce index f).search_result (by rw [r.view_announce]; exact hs) hl f
  rw [r.view_announce] at hsearch
  unfold checkRequirement
  cases hr : RunM.search g settings f.universal (r.announce g index f) with
  | ok a r' =>
    rw [hr] at hsearch
    exact hsearch
  | error e r' =>
    rw [hr] at hsearch
    cases e with
    | refuted x =>
      rcases hsearch with ⟨he, -⟩ | ⟨u, hu, hx⟩
      · cases he
      · exact .inr ⟨u, hu, .inl ⟨x, rfl, hx⟩⟩
    | stop e =>
      rcases hsearch with ⟨he, hturns⟩ | ⟨u, hu, hx⟩
      · exact .inl ⟨Halt.stop.inj he, hturns⟩
      · exact .inr ⟨u, hu, .inr hx⟩

theorem checkFrom_cons (index : Nat) (f : Formula) (es : List Formula) (r : Run) :
    checkFrom g settings index (f :: es) r =
      match checkRequirement g settings index f r with
      | .ok _ r' => checkFrom g settings (index + 1) es r'
      | .error e r' => .error e r' := by
  rw [checkFrom]
  change EStateM.bind _ _ r = _
  rw [EStateM.bind]
  cases checkRequirement g settings index f r <;> rfl

theorem checkFrom_append (index : Nat) (es es' : List Formula) (r : Run) :
    checkFrom g settings index (es ++ es') r =
      match checkFrom g settings index es r with
      | .ok _ r' => checkFrom g settings (index + es.length) es' r'
      | .error e r' => .error e r' := by
  induction es generalizing index r with
  | nil => rfl
  | cons f es ih =>
    rw [List.cons_append, checkFrom_cons, checkFrom_cons]
    cases checkRequirement g settings index f r with
    | ok a r₁ =>
      simp only [List.length_cons]
      rw [ih, Nat.add_right_comm, Nat.add_assoc]
    | error e r₁ => rfl

theorem search_of_checkRequirement_ok {index : Nat} {f : Formula} {a : Unit}
    (h : checkRequirement g settings index f r = .ok a r') :
    RunM.search g settings f.universal (r.announce g index f) = .ok () r' := by
  unfold checkRequirement at h
  cases hs : RunM.search g settings f.universal (r.announce g index f) with
  | ok b r₁ =>
    rw [hs] at h
    cases h
    rfl
  | error e r₁ =>
    rw [hs] at h
    cases e <;> cases h

/-- The last of several requirements is looked at when those before it hold. -/
theorem exists_of_checkFrom_take {es : List Formula} {n : Nat} {f : Formula} (hf : es[n]? = some f)
    (h : checkFrom g settings 0 (es.take (n + 1)) r = .ok () r') :
    ∃ r₁, checkFrom g settings 0 (es.take n) r = .ok () r₁ ∧
      RunM.search g settings f.universal (r₁.announce g n f) = .ok () r' := by
  have hlen : (es.take n).length = n := by
    have := (List.getElem?_eq_some_iff.mp hf).1
    rw [List.length_take]
    omega
  rw [List.take_add_one, hf, Option.toList_some, checkFrom_append, hlen, Nat.zero_add] at h
  cases hr : checkFrom g settings 0 (es.take n) r with
  | ok a r₁ =>
    rw [hr] at h
    dsimp only at h
    rw [checkFrom_cons] at h
    cases hreq : checkRequirement g settings n f r₁ with
    | ok b r₂ =>
      rw [hreq] at h
      cases h
      exact ⟨r₁, rfl, search_of_checkRequirement_ok hreq⟩
    | error e r₂ =>
      rw [hreq] at h
      cases h
  | error e r₁ =>
    rw [hr] at h
    cases h

/-- If all requirements hold, so do the first of them. -/
theorem exists_checkFrom_take {es : List Formula} (h : checkFrom g settings 0 es r = .ok () r')
    (n : Nat) : ∃ r₁, checkFrom g settings 0 (es.take n) r = .ok () r₁ := by
  rw [← List.take_append_drop n es, checkFrom_append] at h
  cases hr : checkFrom g settings 0 (es.take n) r with
  | ok a r₁ => exact ⟨r₁, rfl⟩
  | error e r₁ =>
    rw [hr] at h
    cases h

/-- After requirements that hold, nothing is left to do. -/
theorem Run.OnCourse.checkFrom_ok (h : r.OnCourse g order fs past) (hs : (r.view []).Idle)
    (hl : settings.popLimit = none) {index : Nat} {es : List Formula}
    (hc : checkFrom g settings index es r = .ok () r') :
    ∃ past', r'.OnCourse g order (es.reverse ++ fs) past' ∧ (r'.view []).Idle := by
  induction es generalizing index r fs past with
  | nil =>
    cases hc
    exact ⟨past, h, hs⟩
  | cons f es ih =>
    have hreq := h.requirement_result hs hl index f
    rw [checkFrom_cons] at hc
    cases hr : checkRequirement g settings index f r with
    | ok a r₁ =>
      rw [hr] at hc hreq
      obtain ⟨past', h', hs'⟩ := ih hreq.1 hreq.2 hc
      refine ⟨past', ?_, hs'⟩
      rwa [List.reverse_cons, List.append_assoc, List.singleton_append]
    | error e r₁ =>
      rw [hr] at hc
      cases hc

/-- A check stops at a requirement, after those before it. -/
theorem exists_of_checkFrom_error {index : Nat} {es : List Formula} {e : Stop}
    (hc : checkFrom g settings index es r = .error e r') :
    ∃ k f r₁, es[k]? = some f ∧ checkFrom g settings index (es.take k) r = .ok () r₁ ∧
      checkRequirement g settings (index + k) f r₁ = .error e r' := by
  induction es generalizing index r with
  | nil => cases hc
  | cons f es ih =>
    rw [checkFrom_cons] at hc
    cases hr : checkRequirement g settings index f r with
    | ok a r₁ =>
      rw [hr] at hc
      obtain ⟨k, f', r₂, hk, hok, herr⟩ := ih hc
      refine ⟨k + 1, f', r₂, hk, ?_, ?_⟩
      · rw [List.take_succ_cons, checkFrom_cons, hr]
        exact hok
      · rw [Nat.add_comm k 1, ← Nat.add_assoc]
        exact herr
    | error e' r₁ =>
      rw [hr] at hc
      cases hc
      exact ⟨0, f, r, rfl, rfl, hr⟩

theorem Run.onCourse_start (g : Kripke) (store : Store) :
    (Run.start store.reset).OnCourse g store.config.order [] (.start store.config.order) ∧
      ((Run.start store.reset).view []).Idle := by
  have hview : (Run.start store.reset).view [] = .start store.config.order := by
    simp [Run.start, Run.view, Search.start, Store.reset, Store.queue, Run.told, SeenSet.clear,
      Table.clear, Table.withChains, Table.toList, Call.told?]
  refine ⟨⟨⟨?_, ?_⟩, ?_⟩, ?_⟩
  · simp [Run.start, Store.reset]
  · simp [Run.start, Store.reset, Table.clear, Table.withChains, Table.toList]
  · rw [hview]
    exact .start
  · rw [hview]
    exact ⟨rfl, rfl, rfl⟩

theorem checkAll_eq (spec : Specification) (r : Run) :
    checkAll g settings spec r =
      match checkFrom g settings 0 spec r with
      | .ok _ r' => .ok () (r'.note (.allHold spec.length r'.store.stats))
      | .error e r' => .error e r' := by
  unfold checkAll
  change EStateM.bind _ _ _ = _
  rw [EStateM.bind]
  cases checkFrom g settings 0 spec r <;> rfl

namespace Checker

variable {c : Checker} {spec : Specification}

/-- The answer of a check is what its requirements come to. -/
theorem result_check (hv : spec.validate = .ok ()) :
    (c.check spec).1.result =
      match checkFrom c.graph c.settings 0 spec (.start c.store.reset) with
      | .ok _ _ => .ok ()
      | .error e _ => .error e := by
  unfold check
  rw [hv]
  dsimp only
  rw [checkAll_eq]
  cases checkFrom c.graph c.settings 0 spec (.start c.store.reset) <;> rfl

/-- The run in which a check ends, in whatever way. -/
def final (c : Checker) (spec : Specification) : Run :=
  match checkAll c.graph c.settings spec (.start c.store.reset) with
  | .ok _ r | .error _ r => r

/-- The last run is what a check leaves behind. -/
theorem check_snd (hv : spec.validate = .ok ()) : (c.check spec).2 = c.leave (c.final spec) := by
  unfold check final
  rw [hv]
  dsimp only
  cases checkAll c.graph c.settings spec (.start c.store.reset) <;> rfl

/-- A check accepts at the end of its course. -/
theorem exists_of_check_ok (hl : c.settings.popLimit = none) (hv : spec.validate = .ok ())
    (h : (c.check spec).1.result = .ok ()) :
    ∃ past s, Course c.graph c.store.config.order spec.reverse past s ∧ s.Idle := by
  rw [result_check hv] at h
  cases hc : checkFrom c.graph c.settings 0 spec (.start c.store.reset) with
  | ok a r =>
    obtain ⟨h₀, hs₀⟩ := Run.onCourse_start c.graph c.store
    obtain ⟨past, h', hs⟩ := h₀.checkFrom_ok hs₀ hl hc
    rw [List.append_nil] at h'
    exact ⟨past, r.view [], h'.course, hs⟩
  | error e r =>
    rw [hc] at h
    cases h

/-- A check stops with a requirement whose search halts, or takes all its turns. -/
theorem exists_of_check_error (hl : c.settings.popLimit = none) (hv : spec.validate = .ok ())
    {e : Stop} (h : (c.check spec).1.result = .error e) :
    ∃ k f, spec[k]? = some f ∧
      ((e = .fault .outOfTurns ∧ ∃ r, c.Iteration spec k (c.graph.turnBound f.universal) r) ∨
      ∃ past u, Course c.graph c.store.config.order (f :: (spec.take k).reverse) past u ∧
        ((∃ x, e = .error (.unsatisfied k f x) ∧ u.Halts c.graph (.refuted x)) ∨
          u.Halts c.graph (.stop e))) := by
  rw [result_check hv] at h
  cases hc : checkFrom c.graph c.settings 0 spec (.start c.store.reset) with
  | ok a r =>
    rw [hc] at h
    cases h
  | error e' r =>
    rw [hc] at h
    cases h
    obtain ⟨k, f, r₁, hk, hok, herr⟩ := exists_of_checkFrom_error hc
    obtain ⟨h₀, hs₀⟩ := Run.onCourse_start c.graph c.store
    obtain ⟨past, h₁, hs₁⟩ := h₀.checkFrom_ok hs₀ hl hok
    rw [List.append_nil] at h₁
    have hreq := h₁.requirement_result hs₁ hl (0 + k) f
    rw [herr, Nat.zero_add] at hreq
    refine ⟨k, f, hk, ?_⟩
    rcases hreq with ⟨he, r₂, r₃, h₂, h₃⟩ | ⟨u, hu, hx⟩
    · exact .inl ⟨he, r₃, f, r₁, r₂, hk, hok, h₂, h₃⟩
    · exact .inr ⟨_, u, hu, hx⟩

/-- The iterations of a check are on its course. -/
theorem Iteration.onCourse (hl : c.settings.popLimit = none) {index k : Nat}
    (h : c.Iteration spec index k r) : ∃ f past, spec[index]? = some f ∧
      r.OnCourse c.graph c.store.config.order (f :: (spec.take index).reverse) past := by
  obtain ⟨f, r₀, r₁, hf, hok, hseed, hturns⟩ := h
  obtain ⟨h₀, hs₀⟩ := Run.onCourse_start c.graph c.store
  obtain ⟨past, hc, hs⟩ := h₀.checkFrom_ok hs₀ hl hok
  rw [List.append_nil] at hc
  obtain ⟨r₁', h₁', hc₁⟩ := (hc.announce index f).seed (by rw [r₀.view_announce]; exact hs) f
  rw [hseed] at h₁'
  cases h₁'
  exact ⟨f, _, hf, hc₁.turns hturns⟩

end Checker

/-! ### Small graphs -/

theorem Kripke.toList_insert_first : ((∅ : SortedSet NodeId).insert ⟨0⟩).toList ≠ [] := by decide

/-- A single node without variables, with an edge to itself at no cost. -/
def Kripke.loop : Kripke where
  nodes := #[⟨⟨∅, false, "", ""⟩, .read⟩]
  edges := #[[⟨⟨0⟩, .zero⟩]]
  initial := (∅ : SortedSet NodeId).insert ⟨0⟩
  size_edges := rfl
  total := by simp
  inside := by simp
  initial_nonempty := toList_insert_first
  initial_inside := by decide

/-- Two nodes with one edge each, to the other and back. -/
def Kripke.swing (there back : Cost) : Kripke where
  nodes := #[⟨⟨∅, false, "left", ""⟩, .read⟩, ⟨⟨∅, false, "right", ""⟩, .read⟩]
  edges := #[[⟨⟨1⟩, there⟩], [⟨⟨0⟩, back⟩]]
  initial := (∅ : SortedSet NodeId).insert ⟨0⟩
  size_edges := rfl
  total := by simp
  inside := by simp
  initial_nonempty := toList_insert_first
  initial_inside := by decide

/-- A checker whose tables start small. -/
def Checker.small (g : Kripke) (order : PendingOrder) : Checker :=
  ⟨g, { order, bits := 0 }, .empty ⟨order, 0⟩, .empty⟩

end CostCTL
