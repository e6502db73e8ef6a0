import CostCTL.Proofs.Refutation

/-!
# What a visit comes to

Jobs with one link and one session share their visits: a job whose key was visited before is
dropped. That is right if the earlier visit is finished, with all that came of it
(`Search.Finished`): the formula was found to hold at the node, or, for one that may hold for ever,
what it needs there was found to hold and every successor is visited. The link was resumed, too.

Visits that are not finished lie on the way to the work at hand (`Search.Clear`): they are visits of
larger formulas, or of the same path formula at the nodes of its history, and to come there again is
to close a cycle. When the work has been done (`Search.Served`), the visit that it is about is
finished as well (`finished_of_served`).
-/

namespace CostCTL

open Formula

variable {g : Kripke} {s t : Search} {f : Formula}

namespace Formula

/-- The formula holds if it goes on for ever. -/
def isWeak : Formula → Bool
  | always .all _ | weakUntil .all _ _ => true
  | _ => false

theorem isOngoing_of_isWeak (hf : f.isWeak = true) :
    f.isOngoing = true ∧ f.isEventuality = false := by
  cases f with
  | always q | weakUntil q =>
    cases q with
    | all => exact ⟨rfl, rfl⟩
    | some => cases hf
  | atom | not | and | or | implies | eventually | next | strongUntil | within => cases hf

/-- The formula holds at the node if the nodes of the set are all right. -/
def Reduces (g : Kripke) (V : NodeId → Prop) (f : Formula) (i : NodeId) : Prop :=
  if f.isWeak then f.ends.Holds g i ∨ (f.keeps.Holds g i ∧ ∀ e ∈ g.successors i, V e.target)
  else f.Holds g i

theorem Reduces.mono {V W : NodeId → Prop} {i : NodeId} (h : f.Reduces g V i)
    (hVW : ∀ j, V j → W j) : f.Reduces g W i := by
  unfold Reduces at h ⊢
  split at h
  · next hf =>
    rw [if_pos hf]
    exact h.imp_right fun ⟨hk, hnext⟩ => ⟨hk, fun e he => hVW _ (hnext e he)⟩
  · next hf =>
    rw [if_neg hf]
    exact h

/-- A set that depends on itself only is all right. -/
theorem Reduces.holds {V : NodeId → Prop} {i : NodeId} (hV : ∀ j, V j → f.Reduces g V j)
    (hi : V i) : f.Holds g i := by
  by_cases hf : f.isWeak = true
  · obtain ⟨hongoing, hweak⟩ := isOngoing_of_isWeak hf
    refine (holds_iff_allUntil hongoing).mpr (AllUntil.of_closed (V := V) (fun j hj => ?_) hi hweak)
    have h := hV j hj
    rw [Reduces, if_pos hf] at h
    refine h.imp_right fun ⟨hk, hnext⟩ => ⟨hk, ?_⟩
    rintro m ⟨e, he, rfl⟩
    exact hnext e he
  · have h := hV i hi
    rwa [Reduces, if_neg hf] at h

end Formula

/-! ### Finished visits -/

namespace Search

def Resumed (s : Search) (link : Option RevisitId) : Prop :=
  ∀ i, link = some i → ∃ e, s.record? i = some e ∧ e.resumed = true

def Failed (s : Search) (session : Option SessionId) : Prop :=
  ∃ x, s.result? session = some (.fail x)

/-- The formula was looked at there, with the same link and session. -/
def Looked (s : Search) (k : VisitKey) (i : NodeId) : Prop :=
  { k with node := i, inCycle := false } ∈ s.visited

/-- Nothing more is to come of the visit. -/
def Finished (g : Kripke) (s : Search) (k : VisitKey) : Prop :=
  s.Failed k.session ∨ (s.Resumed k.link ∧
    if k.inCycle then k.formula.isEventuality = false
    else k.formula.Reduces g (s.Looked k) k.node)

theorem Resumed.extends {link : Option RevisitId} (h : s.Resumed link) (he : s.Extends t) :
    t.Resumed link := by
  intro i hi
  obtain ⟨e, hrec, hres⟩ := h i hi
  obtain ⟨b, hb, hr⟩ := he.entry i e hrec
  exact ⟨_, hb, hr hres⟩

theorem Failed.extends {session : Option SessionId} (h : s.Failed session) (he : s.Extends t) :
    t.Failed session := by
  obtain ⟨x, hx⟩ := h
  obtain ⟨r, hr, heq⟩ := he.result _ _ hx
  exact ⟨x, by rw [hr, heq (by simp)]⟩

theorem Failed.not_open {session : Option SessionId} (h : s.Failed session) : ¬ s.Open session := by
  obtain ⟨x, hx⟩ := h
  intro ho
  cases hx.symm.trans ho

theorem Finished.extends {k : VisitKey} (h : s.Finished g k) (he : s.Extends t) :
    t.Finished g k := by
  rcases h with h | ⟨hres, h⟩
  · exact .inl (h.extends he)
  · refine .inr ⟨hres.extends he, ?_⟩
    split at h
    · next hc =>
      rw [if_pos hc]
      exact h
    · next hc =>
      rw [if_neg hc]
      exact h.mono fun i hi => he.visited _ hi

/-- If all visits of a formula are finished, it holds where it was looked at. -/
theorem holds_of_finished {k : VisitKey} (hk : k ∈ s.visited) (hc : k.inCycle = false)
    (hall : ∀ k' ∈ s.visited, k'.formula = k.formula → k'.link = k.link → k'.session = k.session →
      s.Finished g k') (hopen : ¬ s.Failed k.session) : k.formula.Holds g k.node := by
  have hself : { k with node := k.node, inCycle := false } = k := by rw [← hc]
  refine Reduces.holds (V := s.Looked k) (fun i hi => ?_) (by rw [Looked, hself]; exact hk)
  obtain hf | ⟨-, hf⟩ := hall _ hi rfl rfl rfl
  · exact absurd hf hopen
  · exact hf

end Search

/-! ### Work at hand -/

/-- The formula that the obligation leads to in the end. -/
def Obligation.target : Obligation → Formula
  | .here f | .successors f | .step f | .constrain f _ => f
  | .revisit o _ => o.target

/-- The path formula came through the node. -/
def Obligation.Came (c : Context) : Obligation → NodeId → Prop
  | .successors _, i => c.leave.get? i ≠ none
  | .revisit o _, i => o.Came c i
  | .here _, _ | .step _, _ | .constrain .., _ => False

namespace Search

/-- The visits with the link and the session are finished, but for those on the way to `f`. -/
structure Clear (g : Kripke) (s : Search) (session : Option SessionId) (link : Option RevisitId)
    (f : Formula) (came : NodeId → Prop) : Prop where
  visited : ∀ k ∈ s.visited, k.session = session → k.link = link → s.Finished g k ∨
    (k.inCycle = false ∧ (f.size < k.formula.size ∨ (k.formula = f ∧ came k.node)))
  marked : ∀ i, came i → ⟨i, f, false, ∅, .zero, link, session⟩ ∈ s.visited

/-- Later visits are finished. -/
theorem Clear.mono {session : Option SessionId} {link : Option RevisitId} {came : NodeId → Prop}
    (h : s.Clear g session link f came) (he : s.Extends t)
    (ht : ∀ k ∈ t.visited, k.session = session → k.link = link → k ∈ s.visited ∨ t.Finished g k) :
    t.Clear g session link f came := by
  refine ⟨fun k hk hs hl => ?_, fun i hi => he.visited _ (h.marked i hi)⟩
  rcases ht k hk hs hl with hk | hk
  · exact (h.visited k hk hs hl).imp_left fun hf => hf.extends he
  · exact .inl hk

def Cleared (g : Kripke) (s : Search) : Work → Prop
  | .job j => s.Clear g j.session j.link j.formula (j.history.get? · ≠ none)
  | .todo c link o => s.Clear g c.session link o.target (o.Came c)
  | .done .. | .fail .. | .outcome .. => True

/-- What the obligation leads to was looked at, as far as needed. -/
def Met (g : Kripke) (s : Search) (c : Context) (link : Option RevisitId) : Obligation → Prop
  | .revisit o p =>
    match p.kind with
    | .required => p.formula.Holds g c.node ∧ s.Met g c link o
    | .skip => p.formula.Holds g c.node ∨ s.Met g c link o
    | .ignored => ¬ p.formula.Holds g c.node
  | o => ∀ jobs, o.jobs? g c link = some jobs → ∀ j ∈ jobs, j.visitKey ∈ s.visited

/-- The work was done, unless its session failed. -/
def Served (g : Kripke) (s : Search) : Work → Prop
  | .job j => s.Failed j.session ∨ (s.Resumed j.link ∧ j.visitKey ∈ s.visited)
  | .todo c link o => s.Failed c.session ∨ (s.Resumed link ∧ s.Met g c link o)
  | .done c link => s.Failed c.session ∨ s.Resumed link
  | .fail session _ => s.Failed session
  | .outcome .. => True

theorem Met.extends {c : Context} {link : Option RevisitId} {o : Obligation}
    (h : s.Met g c link o) (he : s.Extends t) : t.Met g c link o := by
  induction o with
  | here | successors | step | constrain =>
    exact fun jobs hj j hjm => he.visited _ (h jobs hj j hjm)
  | revisit o p ih =>
    unfold Met at h ⊢
    split at h
    · exact ⟨h.1, ih h.2⟩
    · exact h.imp_right ih
    · exact h

theorem Served.extends {x : Work} (h : s.Served g x) (he : s.Extends t) : t.Served g x := by
  cases x with
  | job j => exact h.imp (·.extends he) fun ⟨hr, hk⟩ => ⟨hr.extends he, he.visited _ hk⟩
  | todo c link o => exact h.imp (·.extends he) fun ⟨hr, hm⟩ => ⟨hr.extends he, hm.extends he⟩
  | done c link => exact h.imp (·.extends he) (·.extends he)
  | fail session x => exact Failed.extends h he
  | outcome => trivial

end Search

/-! ### From a visit to its obligation and back -/

theorem Job.visitKey_eq {j : Job} (hw : j.window = ∅) :
    j.visitKey = ⟨j.node, j.formula, j.inCycle, ∅, .zero, j.link, j.session⟩ := by
  rw [visitKey, Context.relevantCost, hw]
  rfl

theorem Context.get?_leave_ne_none {c : Context} {i : NodeId} :
    c.leave.get? i ≠ none ↔ i = c.node ∨ c.history.get? i ≠ none := by
  rw [leave, SortedMap.get?_insert]
  split
  · next h => simp [eq_of_beq h]
  · next h => simp [show i ≠ c.node by simpa using h]

/-- A formula that goes on leads to itself, another to smaller ones. -/
theorem Formula.unfoldTemporal_target {p : Position} {o : Obligation} (hu : f.isUniversal = true)
    (hw : p.window = ∅) (hf : f.isWindowFree = true) (h : f.unfoldTemporal p = .obligation o) :
    (f.isOngoing = true ∧ p.inCycle = false ∧ o.target = f ∧
      ∀ c i, o.Came c i ↔ c.leave.get? i ≠ none) ∨
    (f.isOngoing = false ∧ o.target.size < f.size ∧ ∀ c i, ¬ o.Came c i) := by
  have hsmall {e : Formula} (he : e ∈ f.operands) : e.size < f.size := size_lt_of_mem_operands he
  cases f with
  | atom => cases h
  | not e =>
    cases h
    refine .inr ⟨rfl, ?_, fun _ _ => id⟩
    have := e.size_pos
    simp only [Obligation.target, falsum, size]
    omega
  | and l r | or l r | implies l r =>
    cases h
    exact .inr ⟨rfl, hsmall (e := r) (by simp [operands]), fun _ _ => id⟩
  | next q e =>
    cases q with
    | all =>
      cases h
      exact .inr ⟨rfl, hsmall (e := e) (by simp [operands]), fun _ _ => id⟩
    | some => cases hu
  | always q e | eventually q e | strongUntil q l r | weakUntil q l r =>
    cases q with
    | all =>
      obtain ⟨rfl, hc⟩ := eq_inside_of_proceed hw (by simp) h
      exact .inl ⟨rfl, hc, rfl, fun _ _ => Iff.rfl⟩
    | some => cases hu
  | within => cases hf

/-- A formula that goes on is ended, or kept and looked at everywhere next. -/
theorem Search.Met.of_isOngoing {c : Context} {link : Option RevisitId} {p : Position}
    {o : Obligation} (hf : f.isOngoing = true) (hw : p.window = ∅)
    (h : f.unfoldTemporal p = .obligation o) (hm : s.Met g c link o) :
    f.ends.Holds g c.node ∨ (f.keeps.Holds g c.node ∧
      ∀ e ∈ g.successors c.node, (⟨c.follow c.leave e, f, link⟩ : Job).visitKey ∈ s.visited) := by
  have hnext (hm : s.Met g c link (.successors f)) (e : Edge) (he : e ∈ g.successors c.node) :
      (⟨c.follow c.leave e, f, link⟩ : Job).visitKey ∈ s.visited :=
    hm _ rfl _ (List.mem_map.mpr ⟨e, he, rfl⟩)
  cases f with
  | always q e =>
    cases q with
    | all =>
      obtain ⟨rfl, -⟩ := eq_inside_of_proceed hw (by simp) h
      exact .inr ⟨hm.1, hnext hm.2⟩
    | some => cases hf
  | eventually q e =>
    cases q with
    | all =>
      obtain ⟨rfl, -⟩ := eq_inside_of_proceed hw (by simp) h
      exact hm.imp_right fun hm => ⟨not_holds_falsum, hnext hm⟩
    | some => cases hf
  | strongUntil q l r | weakUntil q l r =>
    cases q with
    | all =>
      obtain ⟨rfl, -⟩ := eq_inside_of_proceed hw (by simp) h
      exact hm.imp_right fun hm => ⟨hm.1, hnext hm.2⟩
    | some => cases hf
  | atom | not | and | or | implies | next | within => cases hf

theorem Context.inCycle_of_history_eq {c : Context} (h : c.history = ∅) : c.inCycle = false := by
  rw [inCycle, closesCycle, h]
  rfl

theorem Formula.isWeak_eq_false (hf : f.isOngoing = true) (hw : f.isWeak ≠ true) :
    f.isEventuality = true := by
  cases f with
  | always q | weakUntil q =>
    cases q with
    | all => exact absurd rfl hw
    | some => cases hf
  | eventually q | strongUntil q =>
    cases q with
    | all => rfl
    | some => cases hf
  | atom | not | and | or | implies | next | within => cases hf

section Visit

variable {j : Job} {o : Obligation} {node : Node}

/-- The visits with the job's link and session are finished, but for its own and those on the way. -/
def Search.ClearBut (g : Kripke) (s : Search) (j : Job) : Prop :=
  ∀ k ∈ s.visited, k.session = j.session → k.link = j.link →
    k = j.visitKey ∨ s.Finished g k ∨ (k.inCycle = false ∧
      (j.formula.size < k.formula.size ∨ (k.formula = j.formula ∧ j.history.get? k.node ≠ none)))

/-- What a visit may rely on: smaller formulas hold where they were looked at, and the visits of the
same eventuality are finished, but for its own and those on the way. -/
structure Search.Backs (g : Kripke) (s : Search) (j : Job) : Prop where
  small : ∀ e i, e.size < j.formula.size →
    ⟨i, e, false, ∅, .zero, j.link, j.session⟩ ∈ s.visited → e.Holds g i
  same : j.formula.isEventuality = true → ∀ k ∈ s.visited, k.session = j.session →
    k.link = j.link → k.formula = j.formula → k = j.visitKey ∨ s.Finished g k ∨
      (k.inCycle = false ∧ j.history.get? k.node ≠ none)

/-- The visits of a smaller formula are finished, so it holds where it was looked at. -/
theorem Search.ClearBut.backs (hvis : t.ClearBut g j) (hfail : ¬ t.Failed j.session) :
    t.Backs g j where
  small e i he hk := by
    refine Search.holds_of_finished hk rfl (fun k hk hf hl hs => ?_) hfail
    have hf : k.formula = e := hf
    rcases hvis k hk hs hl with rfl | h | ⟨-, h | h⟩
    · cases hf
      exact absurd he (Nat.lt_irrefl _)
    · exact h
    · rw [hf] at h
      omega
    · rw [← hf, h.1] at he
      exact absurd he (Nat.lt_irrefl _)
  same _ k hk hs hl hf := by
    refine (hvis k hk hs hl).imp_right (Or.imp_right (And.imp_right fun h => ?_))
    rcases h with h | h
    · rw [hf] at h
      exact absurd h (Nat.lt_irrefl _)
    · exact h.2

/-- A job of a search without windows. Only formulas that go on have a history. -/
structure Job.Plain (j : Job) : Prop where
  window : j.window = ∅
  isUniversal : j.formula.isUniversal = true
  isWindowFree : j.formula.isWindowFree = true
  history : j.formula.isOngoing = false → j.history = ∅

theorem Search.Met.holds (hj : j.Plain) (hongoing : j.formula.isOngoing = false)
    (h : j.formula.unfoldTemporal (j.position node) = .obligation o) (hvis : t.Backs g j)
    (hm : t.Met g j.toContext j.link o) : j.formula.Holds g j.node := by
  obtain ⟨hw, hu, hfree, hempty⟩ := hj
  have hempty := hempty hongoing
  have hsmall {e : Formula} (he : e ∈ j.formula.operands) : e.size < j.formula.size :=
    size_lt_of_mem_operands he
  have hhere {e : Formula} (he : e ∈ j.formula.operands)
      (hm : t.Met g j.toContext j.link (.here e)) : e.Holds g j.node := by
    refine hvis.small e _ (hsmall he) ?_
    have hk := hm _ rfl _ List.mem_cons_self
    rw [Job.visitKey_eq (j := ⟨j.toContext, e, j.link⟩) hw] at hk
    rwa [show (⟨j.toContext, e, j.link⟩ : Job).inCycle = false from
      Context.inCycle_of_history_eq hempty] at hk
  obtain ⟨c, f, link⟩ := j
  cases f with
  | atom => cases h
  | not e =>
    cases h
    exact hm
  | and l r =>
    cases h
    exact ⟨hm.1, hhere (by simp [operands]) hm.2⟩
  | or l r =>
    cases h
    exact hm.imp_right (hhere (by simp [operands]))
  | implies l r =>
    cases h
    exact imp_iff_not_or.mpr (hm.imp_right (hhere (by simp [operands])))
  | next q e =>
    cases q with
    | all =>
      cases h
      refine holds_next_iff.mpr fun d hd => ?_
      refine hvis.small e _ (hsmall (by simp [operands])) ?_
      have hk := hm _ rfl _ (List.mem_map.mpr ⟨d, hd, rfl⟩)
      rw [Job.visitKey_eq (by exact hw)] at hk
      exact hk
    | some => cases hu
  | always q | eventually q | strongUntil q | weakUntil q =>
    cases q with
    | all => cases hongoing
    | some => cases hu
  | within => cases hfree

/-- Once the obligation is met, the visit that left it is finished. -/
theorem Search.Met.reduces (hj : j.Plain)
    (h : j.formula.unfoldTemporal (j.position node) = .obligation o)
    (hc : j.inCycle = false) (hkey : j.visitKey ∈ t.visited)
    (hmark : ∀ i, j.history.get? i ≠ none →
      ⟨i, j.formula, false, ∅, .zero, j.link, j.session⟩ ∈ t.visited)
    (hvis : t.Backs g j) (hfail : ¬ t.Failed j.session) (hm : t.Met g j.toContext j.link o) :
    j.formula.Reduces g (t.Looked j.visitKey) j.node := by
  have hw := hj.window
  cases hongoing : j.formula.isOngoing with
  | false =>
    have hweak : j.formula.isWeak ≠ true := fun h => by
      cases hongoing.symm.trans (isOngoing_of_isWeak h).1
    rw [Reduces, if_neg hweak]
    exact hm.holds hj hongoing h hvis
  | true =>
    have hstep := hm.of_isOngoing hongoing hw h
    -- the next job closes a cycle at the nodes of the history
    have hnext (e : Edge) : ∃ b, (⟨j.follow j.leave e, j.formula, j.link⟩ : Job).visitKey =
        ⟨e.target, j.formula, b, ∅, .zero, j.link, j.session⟩ ∧
        (b = true ↔ e.target = j.node ∨ j.history.get? e.target ≠ none) := by
      refine ⟨_, Job.visitKey_eq hw, ?_⟩
      rw [← Context.get?_leave_ne_none]
      exact Context.inCycle_iff (c := j.follow j.leave e) hw
    have hself : ⟨j.node, j.formula, false, ∅, .zero, j.link, j.session⟩ ∈ t.visited := by
      rw [Job.visitKey_eq hw, hc] at hkey
      exact hkey
    by_cases hweak : j.formula.isWeak = true
    · rw [Reduces, if_pos hweak]
      refine hstep.imp_right fun ⟨hkeeps, hall⟩ => ⟨hkeeps, fun e he => ?_⟩
      rw [Search.Looked, Job.visitKey_eq hw]
      obtain ⟨b, hb, hcycle⟩ := hnext e
      have hk := hall e he
      rw [hb] at hk
      cases b with
      | false => exact hk
      | true =>
        rcases hcycle.mp rfl with heq | hhist
        · rw [heq]
          exact hself
        · exact hmark _ hhist
    · rw [Reduces, if_neg hweak]
      have hev := isWeak_eq_false hongoing hweak
      refine holds_of_step hongoing (hstep.imp_right fun ⟨hkeeps, hall⟩ => ⟨hkeeps, fun e he => ?_⟩)
      obtain ⟨b, hb, hcycle⟩ := hnext e
      have hk := hall e he
      rw [hb] at hk
      have hno (hb : b = false) : ¬ (e.target = j.node ∨ j.history.get? e.target ≠ none) :=
        fun h => by cases hb.symm.trans (hcycle.mpr h)
      rcases hvis.same hev _ hk rfl rfl rfl with heq | hfin | ⟨hb, hhist⟩
      · rw [Job.visitKey_eq hw, hc] at heq
        exact absurd (.inl (congrArg VisitKey.node heq)) (hno (congrArg VisitKey.inCycle heq))
      · rcases hfin with hf | ⟨-, hfin⟩
        · exact absurd hf hfail
        · cases b with
          | true => cases hev.symm.trans hfin
          | false =>
            simp only [Bool.false_eq_true, if_false] at hfin
            rwa [Reduces, if_neg hweak] at hfin
      · exact absurd (.inr hhist) (hno hb)

theorem Formula.unfoldTemporal_eq_pass {p : Position} (hs : f.isState = false)
    (h : f.unfoldTemporal p = .pass) : p.inCycle = true ∧ f.isEventuality = false := by
  have hproceed {looped : Unfolding} {inside : Obligation} (h : proceed p f looped inside = .pass) :
      p.inCycle = true ∧ looped = .pass := by
    unfold proceed at h
    split at h
    · next hc => exact ⟨hc, h⟩
    · split at h <;> cases h
  cases f with
  | atom => cases hs
  | not | and | or | implies | within => cases h
  | next q e => cases q <;> cases h
  | always q e | weakUntil q l r =>
    cases q with
    | all => exact ⟨(hproceed h).1, rfl⟩
    | some => cases h
  | eventually q e | strongUntil q l r =>
    cases q with
    | all => cases (hproceed h).2
    | some => cases h

theorem Formula.isOngoing_of_isState (hs : f.isState = true) : f.isOngoing = false := by
  cases f with
  | atom | not | and | or | implies => rfl
  | always | eventually | next | strongUntil | weakUntil | within => cases hs

/-- Once the work that a visit led to is done, the visit is finished. -/
theorem Search.finished_of_served {u : Unfolding} (hj : j.Plain) (hn : g.node? j.node = some node)
    (hu : j.formula.unfold (j.position node) = .ok u) (hkey : j.visitKey ∈ t.visited)
    (hmark : ∀ i, j.history.get? i ≠ none →
      ⟨i, j.formula, false, ∅, .zero, j.link, j.session⟩ ∈ t.visited)
    (hvis : ¬ t.Failed j.session → t.Backs g j) (h : t.Served g (u.work j)) :
    t.Finished g j.visitKey ∧ t.Served g (.job j) := by
  by_cases hfail : t.Failed j.session
  · exact ⟨.inl hfail, .inl hfail⟩
  suffices hfin : t.Finished g j.visitKey by
    exact ⟨hfin, .inr ⟨(hfin.resolve_left hfail).1, hkey⟩⟩
  have hstate (hs : j.formula.isOngoing = false) : j.visitKey.inCycle = false :=
    Context.inCycle_of_history_eq (hj.history hs)
  unfold Formula.unfold at hu
  split at hu
  · next hs =>
    obtain ⟨judgement, hjudge, hu⟩ := exists_of_bind_eq_ok hu
    have hongoing := isOngoing_of_isState hs
    rcases judge_of_window_eq_empty hj.window hn hjudge with ⟨rfl, hholds⟩ | ⟨rfl, -⟩
    · cases hu
      refine .inr ⟨h.resolve_left hfail, ?_⟩
      rw [if_neg (by rw [hstate hongoing]; simp), Reduces, if_neg fun hweak => by
        cases hongoing.symm.trans (isOngoing_of_isWeak hweak).1]
      exact hholds
    · cases hu
      exact absurd h hfail
  · next hs =>
    have hu := Except.ok.inj hu
    cases u with
    | pass =>
      obtain ⟨hc, hweak⟩ := unfoldTemporal_eq_pass (by simpa using hs) hu
      refine .inr ⟨h.resolve_left hfail, ?_⟩
      rw [if_pos (show j.visitKey.inCycle = true from hc)]
      exact hweak
    | fail v => exact absurd h hfail
    | obligation o =>
      obtain ⟨hres, hm⟩ := h.resolve_left hfail
      have hc : j.inCycle = false := by
        rcases unfoldTemporal_target hj.isUniversal hj.window hj.isWindowFree hu with
          ⟨-, hc, -⟩ | ⟨hongoing, -⟩
        · exact hc
        · exact hstate hongoing
      refine .inr ⟨hres, ?_⟩
      rw [if_neg (by rw [show j.visitKey.inCycle = false from hc]; simp)]
      exact hm.reduces hj hu hc hkey hmark (hvis hfail) hfail

/-- A visit is on the way to what it leaves to do. -/
theorem Search.Cleared.visit (hj : j.Plain)
    (hu : j.formula.unfold (j.position node) = .ok (.obligation o))
    (h : s.Cleared g (.job j)) (he : s.Extends t) (hv : t.visited = s.visited ++ [j.visitKey]) :
    t.Cleared g (.todo j.toContext j.link o) := by
  have htarget := unfoldTemporal_target hj.isUniversal hj.window hj.isWindowFree
    (unfoldTemporal_of_unfold hu).2
  have hkey : j.visitKey ∈ t.visited := by simp [hv]
  have hc : j.inCycle = false := by
    rcases htarget with ⟨-, hc, -⟩ | ⟨hongoing, -⟩
    · exact hc
    · exact Context.inCycle_of_history_eq (hj.history hongoing)
  refine ⟨fun k hk hs hl => ?_, fun i hi => ?_⟩
  · rw [hv, List.mem_append, List.mem_singleton] at hk
    rcases hk with hk | rfl
    · refine (h.visited k hk hs hl).imp (·.extends he) (And.imp_right fun hgray => ?_)
      rcases htarget with ⟨-, -, htarget, hcame⟩ | ⟨-, hsize, -⟩
      · rw [htarget, hcame, Context.get?_leave_ne_none]
        exact hgray.imp_right (And.imp_right .inr)
      · refine .inl ?_
        rcases hgray with hlt | ⟨heq, -⟩
        · omega
        · rw [heq]
          exact hsize
    · refine .inr ⟨hc, ?_⟩
      rcases htarget with ⟨-, -, htarget, hcame⟩ | ⟨-, hsize, -⟩
      · rw [htarget, hcame, Context.get?_leave_ne_none]
        exact .inr ⟨rfl, .inl rfl⟩
      · exact .inl hsize
  · rcases htarget with ⟨-, -, htarget, hcame⟩ | ⟨-, -, hcame⟩
    · rw [hcame, Context.get?_leave_ne_none] at hi
      rw [htarget]
      rcases hi with rfl | hi
      · rw [Job.visitKey_eq hj.window, hc] at hkey
        exact hkey
      · exact he.visited _ (h.marked i hi)
    · exact absurd hi (hcame _ _)

end Visit

/-! ### From an obligation to its jobs and back -/

section Todo

variable {c : Context} {link : Option RevisitId} {o : Obligation} {jobs : List Job}

theorem Search.Clear.congr {session : Option SessionId} {came came' : NodeId → Prop}
    (h : s.Clear g session link f came) (hcame : ∀ i, came i ↔ came' i) :
    s.Clear g session link f came' := by
  obtain rfl : came = came' := funext fun i => propext (hcame i)
  exact h

theorem Search.Cleared.spawn (h : s.Cleared g (.todo c link o)) (hflat : o.Flat c)
    (hj : o.jobs? g c link = some jobs) : ∀ j ∈ jobs, s.Cleared g (.job j) := by
  cases o with
  | here e =>
    cases hj
    have hempty : c.history = ∅ := hflat
    refine List.forall_mem_singleton.mpr (h.congr fun i => ?_)
    rw [show (⟨c, e, link⟩ : Job).history = ∅ from hempty]
    exact iff_of_false id fun h => h rfl
  | successors e =>
    cases hj
    intro j hj
    obtain ⟨d, -, rfl⟩ := List.mem_map.mp hj
    exact h
  | step e =>
    cases hj
    intro j hj
    obtain ⟨d, -, rfl⟩ := List.mem_map.mp hj
    exact h.congr fun i => iff_of_false id fun h => h rfl
  | constrain e w =>
    rw [Obligation.jobs?] at hj
    split at hj
    · cases hj
      have hempty : c.history = ∅ := hflat
      refine List.forall_mem_singleton.mpr (h.congr fun i => ?_)
      exact iff_of_false id fun h => h (by rw [hempty]; rfl)
    · cases hj
  | revisit => cases hj

theorem Obligation.jobs_ne_nil (hc : c.node.index < g.size) (hj : o.jobs? g c link = some jobs) :
    jobs ≠ [] := by
  cases o with
  | here =>
    cases hj
    simp
  | successors | step =>
    cases hj
    simpa [Context.spread] using Kripke.successors_ne_nil hc
  | constrain =>
    rw [jobs?] at hj
    split at hj
    · cases hj
      simp
    · cases hj
  | revisit => cases hj

theorem Search.Served.of_jobs (hc : c.node.index < g.size) (hj : o.jobs? g c link = some jobs)
    (h : ∀ j ∈ jobs, s.Served g (.job j)) : s.Served g (.todo c link o) := by
  by_cases hfail : s.Failed c.session
  · exact .inl hfail
  have hserved (j : Job) (hjm : j ∈ jobs) : s.Resumed link ∧ j.visitKey ∈ s.visited := by
    have h := h j hjm
    rw [Served, Obligation.session_jobs hj j hjm, Obligation.link_jobs hj j hjm] at h
    exact h.resolve_left hfail
  obtain ⟨j, hjm⟩ := List.exists_mem_of_ne_nil _ (Obligation.jobs_ne_nil hc hj)
  refine .inr ⟨(hserved j hjm).1, ?_⟩
  cases o with
  | here | successors | step | constrain =>
    intro jobs' hj' j hjm
    obtain rfl := Option.some.inj (hj.symm.trans hj')
    exact (hserved j hjm).2
  | revisit => cases hj

theorem Search.Cleared.react {p : Precondition} (h : s.Cleared g (.todo c link (.revisit o p)))
    (finding : Finding) : s.Cleared g ((p.react c finding).work c link o) := by
  cases p.react c finding with
  | proceed => exact h
  | met | fail => trivial

/-- What is done as the precondition tells serves the obligation. -/
theorem Search.Served.of_react {p : Precondition} {finding : Finding} (hh : s.Honest g)
    (hf : s.Truthful g p c.node finding)
    (h : t.Served g ((p.react c finding).work c link o)) :
    t.Served g (.todo c link (.revisit o p)) := by
  unfold Precondition.react at h
  cases finding with
  | holds =>
    cases hk : p.kind with
    | required =>
      rw [hk] at h
      refine h.imp_right fun ⟨hres, hm⟩ => ⟨hres, ?_⟩
      rw [Met, hk]
      exact ⟨hf hh, hm⟩
    | skip =>
      rw [hk] at h
      refine h.imp_right fun hres => ⟨hres, ?_⟩
      rw [Met, hk]
      exact .inl (hf hh)
    | ignored =>
      rw [hk] at h
      exact .inl h
  | fails x =>
    cases hk : p.kind with
    | required =>
      rw [hk] at h
      exact .inl h
    | skip =>
      rw [hk] at h
      refine h.imp_right fun ⟨hres, hm⟩ => ⟨hres, ?_⟩
      rw [Met, hk]
      exact .inr hm
    | ignored =>
      rw [hk] at h
      refine h.imp_right fun hres => ⟨hres, ?_⟩
      rw [Met, hk]
      exact hf.2 hh
  | budget x => exact absurd hf id

end Todo

end CostCTL
