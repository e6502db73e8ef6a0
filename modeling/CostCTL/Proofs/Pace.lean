import CostCTL.Proofs.Finished

/-!
# Formulas for any order

A job whose key was visited before is dropped. If the earlier visit is not done with yet, nothing
may ever come of it: breadth first, a path formula can be dropped on every cycle before the cycle is
closed. That is harmless to a formula which holds if it goes on for ever, unless a revisit waits for
it to be done. A formula is paced if its search has neither eventualities nor such waits
(`Formula.isPaced`). All work on a paced formula is on paced formulas (`Course.paced`), and the
nodes of its histories are visited (`Course.marked`).
-/

namespace CostCTL

open Formula

variable {g : Kripke} {s t : Search} {f : Formula} {base : Nat}

/-- What is asked of a formula whose search may take its jobs in any order. -/
inductive Pace where
  /-- nothing, but for the sessions that it asks -/
  | free
  /-- that it holds if its search comes to an end -/
  | alone
  /-- that its search comes to where a revisit can be resumed, too -/
  | linked
  deriving DecidableEq

/-- What is asked of a precondition that is required. -/
def Pace.inner : Pace → Pace
  | free => free
  | alone | linked => linked

namespace Formula

/-- A precondition that is skipped or ignored is asked in a session, where its formula stands alone.
One that is required is linked to a revisit, which nothing resumes if the formula goes on and its
cycles are not closed. -/
def isPaced (pace : Pace) : Formula → Bool
  | atom _ => true
  | not f => f.isPaced .alone
  | and l r => l.isPaced pace.inner && r.isPaced pace
  | or l r | implies l r => l.isPaced .alone && r.isPaced pace
  | next .all f => f.isPaced pace
  | always .all f => pace ≠ .linked && f.isPaced pace.inner
  | weakUntil .all l r => pace ≠ .linked && l.isPaced pace.inner && r.isPaced .alone
  | eventually .all f => pace = .free && f.isPaced .alone
  | strongUntil .all l r => pace = .free && l.isPaced .free && r.isPaced .alone
  | _ => false

theorem isEventuality_of_isPaced {pace : Pace} (h : f.isPaced pace = true) (hp : pace ≠ .free) :
    f.isEventuality = false := by
  cases f with
  | eventually q | strongUntil q =>
    cases q with
    | all => simp [isPaced, hp] at h
    | some => rfl
  | atom | not | and | or | implies | always | next | weakUntil | within => rfl

theorem isOngoing_of_isPaced (h : f.isPaced .linked = true) : f.isOngoing = false := by
  cases f with
  | always q | eventually q | strongUntil q | weakUntil q =>
    cases q with
    | all => simp [isPaced] at h
    | some => rfl
  | atom | not | and | or | implies | next | within => rfl

end Formula

def Obligation.isPaced (pace : Pace) : Obligation → Bool
  | .here f | .successors f | .step f => f.isPaced pace
  | .constrain .. => false
  | .revisit o p =>
    match p.kind with
    | .required => p.formula.isPaced pace.inner && o.isPaced pace
    | .skip => p.formula.isPaced .alone && o.isPaced pace
    | .ignored => p.formula.isPaced .alone

theorem Formula.isPaced_unfoldTemporal {pace : Pace} {p : Position} {o : Obligation}
    (hf : f.isPaced pace = true) (h : f.unfoldTemporal p = .obligation o) :
    o.isPaced pace = true := by
  have hproceed {looped : Unfolding} {inside : Obligation} (hl : looped ≠ .obligation o)
      (hi : inside.isPaced pace = true) (h : proceed p f looped inside = .obligation o) :
      o.isPaced pace = true := by
    unfold proceed at h
    split at h
    · exact absurd h hl
    · split at h
      · cases h
        exact hf
      · cases h
        exact hi
  cases f with
  | atom => cases h
  | not | and | or | implies =>
    cases h
    exact hf
  | next q e =>
    cases q with
    | all =>
      cases h
      exact hf
    | some => cases hf
  | always q e =>
    cases q with
    | all =>
      have hparts := hf
      simp only [isPaced, Bool.and_eq_true] at hparts
      exact hproceed (by simp) (by simp [Obligation.isPaced, hparts, hf]) h
    | some => cases hf
  | eventually q e =>
    cases q with
    | all =>
      have hparts := hf
      simp only [isPaced, Bool.and_eq_true] at hparts
      exact hproceed (by simp) (by simp [Obligation.isPaced, hparts, hf]) h
    | some => cases hf
  | weakUntil q l r =>
    cases q with
    | all =>
      have hparts := hf
      simp only [isPaced, Bool.and_eq_true] at hparts
      exact hproceed (by simp)
        (by simp [untilObligation, Obligation.isPaced, hparts, hf]) h
    | some => cases hf
  | strongUntil q l r =>
    cases q with
    | all =>
      have hparts := hf
      simp only [isPaced, Bool.and_eq_true, decide_eq_true_eq] at hparts
      obtain ⟨⟨rfl, hl⟩, hr⟩ := hparts
      exact hproceed (by simp)
        (by simp [untilObligation, Obligation.isPaced, Pace.inner, hl, hr, hf]) h
    | some => cases hf
  | within => cases hf

/-! ### Paced work -/

/-- What is asked of work for the session, with the link. The requirement's own may be exempt. -/
def paceOf (exempt : Bool) (session : Option SessionId) (link : Option RevisitId) : Pace :=
  if exempt && session.isNone then .free else if link.isSome then .linked else .alone

theorem paceOf_inner (exempt : Bool) (session : Option SessionId) (link : Option RevisitId)
    (i : RevisitId) : paceOf exempt session (some i) = (paceOf exempt session link).inner := by
  unfold paceOf
  cases exempt <;> cases session <;> cases link <;> rfl

theorem paceOf_session (exempt : Bool) (i : SessionId) : paceOf exempt (some i) none = .alone := by
  simp [paceOf]

def Work.Paced (exempt : Bool) : Work → Prop
  | .job j => j.formula.isPaced (paceOf exempt j.session j.link) = true
  | .todo c link o => o.isPaced (paceOf exempt c.session link) = true
  | .done .. | .fail .. | .outcome .. => True

theorem Work.Paced.react {exempt : Bool} {c : Context} {link : Option RevisitId} {o : Obligation}
    {p : Precondition} (h : (Work.todo c link (.revisit o p)).Paced exempt) (finding : Finding) :
    ((p.react c finding).work c link o).Paced exempt := by
  have hproceed (hk : p.kind ≠ .ignored) : (Work.todo c link o).Paced exempt := by
    simp only [Work.Paced, Obligation.isPaced] at h ⊢
    cases hp : p.kind with
    | required | skip =>
      simp only [hp, Bool.and_eq_true] at h
      exact h.2
    | ignored => exact absurd hp hk
  unfold Precondition.react
  cases finding with
  | holds =>
    cases hk : p.kind with
    | required => exact hproceed (by simp [hk])
    | skip | ignored => trivial
  | fails x =>
    cases hk : p.kind with
    | skip => exact hproceed (by simp [hk])
    | required | ignored => trivial
  | budget x => trivial

theorem Work.paced_hands (g : Kripke) (base : Nat) (f : Formula) (exempt : Bool) :
    Hands g base (fun s x => s.InScope f x) (fun _ => Work.Paced exempt) where
  mono := by
    intro s t x _ hx
    exact hx
  unfold := by
    intro s j node u _ _ _ h _ hu
    cases u with
    | pass | fail => trivial
    | obligation o => exact isPaced_unfoldTemporal h (unfoldTemporal_of_unfold hu).2
  spawn := by
    intro s c link o jobs _ _ _ h hj j hjm
    have hlink := Obligation.link_jobs hj j hjm
    have hsession := Obligation.session_jobs hj j hjm
    rw [Work.Paced, hlink, hsession]
    cases o with
    | here e =>
      cases hj
      obtain rfl := List.mem_singleton.mp hjm
      exact h
    | successors e | step e =>
      cases hj
      obtain ⟨d, -, rfl⟩ := List.mem_map.mp hjm
      exact h
    | constrain => cases h
    | revisit => cases hj
  judge := by
    intro s c link o p node judgement _ _ h _ _ _
    exact h.react _
  answer := by
    intro s c link o p i result finding _ _ h _ _ _ _ _ _ _ _
    exact h.react _
  require := by
    intro s c link o p _ _ h _ hk
    simp only [Work.Paced, Obligation.isPaced, hk, Bool.and_eq_true] at h
    rw [Work.Paced, show paceOf exempt (c.demand p.formula s.nextRevisit).session
      (c.demand p.formula s.nextRevisit).link = _ from paceOf_inner exempt c.session link _]
    exact h.1
  inquire := by
    intro s c link o p _ _ h _ hk _
    show p.formula.isPaced (paceOf exempt (some s.nextSession) none) = true
    rw [paceOf_session]
    simp only [Work.Paced, Obligation.isPaced] at h
    cases hp : p.kind with
    | required => exact absurd hp hk
    | skip =>
      simp only [hp, Bool.and_eq_true] at h
      exact h.1
    | ignored =>
      rw [hp] at h
      exact h
  resume := by
    intro s c i e _ hp _ hi _ _ h _
    obtain ⟨e', he', -, hk⟩ := hp i rfl
    obtain rfl := Option.some.inj (hi.symm.trans he')
    simp only [Revisit.work, Work.Paced, Obligation.isPaced, hk, Bool.and_eq_true] at h
    exact h.2
  exceed := by intros; trivial
  settle := by intros; trivial
  pass := by intros; trivial

section Course

variable {order : PendingOrder} {fs : List Formula} {past : Search}

/-- In a check of paced requirements all work is paced. -/
theorem Course.paced {exempt : Bool} (h : Course g order fs past s)
    (hp : ∀ f ∈ fs, f.universal.isPaced (paceOf exempt none none) = true) :
    s.All past.revisits.length (Work.Paced exempt) :=
  h.all (Q := fun _ _ => Work.Paced exempt)
    (fun f _ base => Work.paced_hands g base f.universal exempt) (fun _ hc _ => hc.inScope)
    (fun f hf _ _ _ => hp f hf) (fun _ _ _ _ _ _ => trivial)
    fun _ hc _ hs => hc.inScope.parked_of_idle hc.valid_accounts.1 hc.valid_accounts.2 hs

/-! ### Histories are visited -/

/-- The nodes that a path formula came through were visited, and not as the end of a cycle. -/
def Search.Marked (s : Search) : Work → Prop
  | .job j => ∀ i, j.history.get? i ≠ none →
    ⟨i, j.formula, false, ∅, .zero, j.link, j.session⟩ ∈ s.visited
  | .todo c link o => ∀ i, o.Came c i → ⟨i, o.target, false, ∅, .zero, link, c.session⟩ ∈ s.visited
  | .done .. | .fail .. | .outcome .. => True

theorem Search.Marked.react {c : Context} {link : Option RevisitId} {o : Obligation}
    {p : Precondition} (h : s.Marked (.todo c link (.revisit o p))) (finding : Finding) :
    s.Marked ((p.react c finding).work c link o) := by
  cases p.react c finding with
  | proceed => exact h
  | met | fail => trivial

theorem Search.marked_hands (g : Kripke) (base : Nat) (hu : f.isUniversal = true)
    (hf : f.isWindowFree = true) :
    Hands g base (fun s x => s.Reached f x ∧ s.Due g f x) Marked where
  mono := by
    intro s t x he hx
    cases x with
    | job | todo => exact fun i hi => he.visited _ (hx i hi)
    | done | fail | outcome => trivial
  unfold := by
    intro s j node u _ _ hp h _ hunfold
    obtain ⟨⟨hpart, -⟩, -⟩ := hp
    have hw : j.window = ∅ := (hpart.isWindowFree hf).2
    cases u with
    | pass | fail => trivial
    | obligation o =>
      intro i hi
      rcases unfoldTemporal_target (hpart.isUniversal hu) hw (hpart.isWindowFree hf).1
        (unfoldTemporal_of_unfold hunfold).2 with ⟨-, hc, htarget, hcame⟩ | ⟨-, -, hno⟩
      · rw [htarget]
        rcases Context.get?_leave_ne_none.mp ((hcame _ _).mp hi) with rfl | hhist
        · refine List.mem_append_right _ (List.mem_singleton.mpr ?_)
          rw [Job.visitKey_eq hw, show j.inCycle = false from hc]
        · exact List.mem_append_left _ (h i hhist)
      · exact absurd hi (hno _ _)
  spawn := by
    intro s c link o jobs _ _ hp h hj j hjm
    obtain ⟨hreach, hflat, -⟩ := hp
    cases o with
    | here e =>
      cases hj
      obtain rfl := List.mem_singleton.mp hjm
      have hempty : c.history = ∅ := hflat
      exact fun i hi => absurd (by rw [hempty]; rfl) hi
    | successors e =>
      cases hj
      obtain ⟨d, -, rfl⟩ := List.mem_map.mp hjm
      exact h
    | step e =>
      cases hj
      obtain ⟨d, -, rfl⟩ := List.mem_map.mp hjm
      exact fun i hi => absurd rfl hi
    | constrain e v => cases (Part.isWindowFree hreach.1 hf).1
    | revisit => cases hj
  judge := by
    intro s c link o p node judgement _ _ h _ _ _
    exact h.react _
  answer := by
    intro s c link o p i result finding _ _ h _ _ _ _ _ _ _ _
    exact h.react _
  require := by
    intro s c link o p _ _ _ _ _ i hi
    exact absurd rfl hi
  inquire := by
    intro s c link o p _ _ _ _ _ _ i hi
    exact absurd rfl hi
  resume := by
    intro s c i e _ _ _ _ _ _ h _
    exact h
  exceed := by intros; trivial
  settle := by intros; trivial
  pass := by intros; trivial

theorem Course.marked (h : Course g order fs past s) (hw : ∀ f ∈ fs, f.isWindowFree = true) :
    s.All past.revisits.length s.Marked :=
  h.all (P := fun f s x => s.Reached f x ∧ s.Due g f x) (Q := fun _ s => s.Marked)
    (fun f hf base => Search.marked_hands g base (isUniversal_universal f)
      (isWindowFree_universal (hw f hf)))
    (fun hes hc _ => hc.reached.and (hc.due fun f hf => hw f (hes hf)))
    (fun _ _ _ _ _ _ hi => absurd rfl hi) (fun _ _ _ _ _ _ => trivial)
    fun _ hc _ hs => hc.inScope.parked_of_idle hc.valid_accounts.1 hc.valid_accounts.2 hs

end Course

end CostCTL
