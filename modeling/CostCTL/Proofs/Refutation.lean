import CostCTL.Proofs.Expansion
import CostCTL.Proofs.Reach

/-!
# What fails is false

Without windows, a search goes by the meaning of formulas. If its session's formula is to hold, then
what is looked into has to hold (`Search.Due`): so a failure refutes the formula. A negation fails
because its operand was found to hold, so all of this is on condition that the sessions that passed
were right to (`Search.Honest`).

An eventuality fails on a cycle. The nodes that it came through since it started lead to the node
that it is at, along edges that leave nodes where it was not met.
-/

namespace CostCTL

open Formula

variable {g : Kripke} {s t : Search} {f : Formula}

/-! ### Without windows -/

namespace Formula

theorem isWindowFree_operands {e : Formula} (hf : f.isWindowFree = true) (h : e ∈ f.operands) :
    e.isWindowFree = true := by
  cases f with
  | atom | within => cases h
  | not | always | eventually | next => exact List.mem_singleton.mp h ▸ hf
  | and l r | or l r | implies l r | strongUntil q l r | weakUntil q l r =>
    rw [isWindowFree, Bool.and_eq_true] at hf
    simp only [operands, List.mem_cons, List.not_mem_nil, or_false] at h
    rcases h with rfl | rfl
    · exact hf.1
    · exact hf.2

/-- Parts of a formula without windows stand within none. -/
theorem Part.isWindowFree {e : Formula} {u : Window} (h : Part f ∅ e u)
    (hf : f.isWindowFree = true) : e.isWindowFree = true ∧ u = ∅ := by
  induction h with
  | self => exact ⟨hf, rfl⟩
  | operand _ he ih => exact ⟨isWindowFree_operands ih.1 he, ih.2⟩
  | @negated l r _ _ ih => exact ⟨isWindowFree_operands (e := l) ih.1 List.mem_cons_self, ih.2⟩
  | inner _ _ ih => cases ih.1

theorem isWindowFree_universal (hf : f.isWindowFree = true) : f.universal.isWindowFree = true := by
  induction f with
  | atom => rfl
  | within => cases hf
  | not f ih => exact ih hf
  | and l r ihl ihr | or l r ihl ihr | implies l r ihl ihr =>
    rw [isWindowFree, Bool.and_eq_true] at hf
    exact Bool.and_eq_true_iff.mpr ⟨ihl hf.1, ihr hf.2⟩
  | always q f ih | eventually q f ih | next q f ih => cases q <;> exact ih hf
  | strongUntil q l r ihl ihr | weakUntil q l r ihl ihr =>
    rw [isWindowFree, Bool.and_eq_true] at hf
    cases q <;> simp [universal, neither, isWindowFree, ihl hf.1, ihr hf.2]

/-- A state formula is judged by its truth. -/
theorem judge_of_window_eq_empty {p : Position} {judgement : Judgement} (hw : p.window = ∅)
    (hn : g.node? p.id = some p.node) (h : f.judge p = .ok judgement) :
    (judgement = .holds ∧ f.Holds g p.id) ∨
    (judgement = .fails (.unsatisfied f p.id) ∧ ¬ f.Holds g p.id) := by
  unfold Formula.judge at h
  rw [hw] at h
  obtain ⟨b, hb, hj⟩ := exists_of_bind_eq_ok h
  cases b with
  | true =>
    cases hj
    exact .inl ⟨rfl, (holds_iff_of_holdsAt hn hb).mpr rfl⟩
  | false =>
    cases hj
    exact .inr ⟨rfl, fun h => by cases (holds_iff_of_holdsAt hn hb).mp h⟩

end Formula

/-- Without window, a node that was left before closes a cycle. -/
theorem Context.inCycle_iff {c : Context} (hw : c.window = ∅) :
    c.inCycle = true ↔ c.history.get? c.node ≠ none := by
  rw [inCycle, closesCycle, hw]
  cases c.history.get? c.node with
  | none => simp
  | some seen => simp [Window.isAhead, Window.verdict, show (∅ : Window).toList = [] from rfl,
      Window.verdictOf]

/-! ### What has to hold -/

namespace Search

/-- The sessions that passed are on formulas that hold. -/
def Honest (g : Kripke) (s : Search) : Prop :=
  ∀ i k, s.key? i = some k → s.result? (some i) = some .pass → k.formula.Holds g k.node

theorem Honest.of_extends (h : t.Honest g) (he : s.Extends t) : s.Honest g := by
  intro i k hk hr
  obtain ⟨r, hr', heq⟩ := he.result _ _ hr
  rw [heq (by simp)] at hr'
  exact h i k (he.key i k hk) hr'

/-- What the work for a session is to find out. -/
def Aim (g : Kripke) (f : Formula) (s : Search) : Option SessionId → Prop
  | none => ∀ i ∈ g.initial, f.Holds g i
  | some i => ∀ k, s.key? i = some k → k.formula.Holds g k.node

theorem Aim.of_extends {session : Option SessionId} (h : t.Aim g f session) (he : s.Extends t) :
    s.Aim g f session := by
  cases session with
  | none => exact h
  | some i => exact fun k hk => h k (he.key i k hk)

end Search

/-- Only formulas that go on have a history. -/
def Obligation.Flat (c : Context) : Obligation → Prop
  | .here _ | .constrain .. => c.history = ∅
  | .successors f => f.isOngoing = true
  | .step _ => True
  | .revisit o p => p.kind = .ignored ∨ o.Flat c

/-- The nodes of the history lead here without meeting the eventuality, and on from here. -/
def Obligation.Unmet (g : Kripke) (c : Context) : Obligation → Prop
  | .successors f => f.isEventuality = true → ¬ f.ends.Holds g c.node ∧
    ∀ i, c.history.get? i ≠ none → Relation.TransGen (f.Onward g) i c.node
  | .here _ | .step _ | .constrain .. => True
  | .revisit o p =>
    match p.kind with
    | .required => o.Unmet g c
    | .skip => ¬ p.formula.Holds g c.node → o.Unmet g c
    | .ignored => True

def Search.Due (g : Kripke) (f : Formula) (s : Search) : Work → Prop
  | .job j => (j.formula.isOngoing = false → j.history = ∅) ∧
    (s.Honest g → (s.Aim g f j.session → j.formula.Holds g j.node) ∧
      (j.formula.isEventuality = true → ∀ i, j.history.get? i ≠ none →
        Relation.TransGen (j.formula.Onward g) i j.node))
  | .todo c _ o => o.Flat c ∧
    (s.Honest g → (s.Aim g f c.session → o.Owes g c.node) ∧ o.Unmet g c)
  | .done .. => True
  | .fail session x => x.violation.isBudget = false ∧ (s.Honest g → ¬ s.Aim g f session)
  | .outcome _ .pending | .outcome _ .pass => True
  | .outcome i (.fail x) => x.violation.isBudget = false ∧
    ∃ k, s.key? i = some k ∧ (s.Honest g → ¬ k.formula.Holds g k.node)
  | .outcome _ (.exceeded _) => False

/-- Obligations of formulas that do not go on leave no history. -/
theorem Formula.flat_unfoldTemporal {c : Context} {p : Position} {o : Obligation}
    (hu : f.isUniversal = true) (hw : p.window = ∅) (hc : f.isOngoing = false → c.history = ∅)
    (h : f.unfoldTemporal p = .obligation o) : o.Flat c := by
  cases f with
  | atom => cases h
  | not e =>
    cases h
    exact .inl rfl
  | and l r | or l r | implies l r =>
    cases h
    exact .inr (hc rfl)
  | next q e =>
    cases q with
    | all =>
      cases h
      trivial
    | some => cases hu
  | always q e | eventually q e =>
    cases q with
    | all =>
      obtain ⟨rfl, -⟩ := eq_inside_of_proceed hw (by simp) h
      exact .inr rfl
    | some => cases hu
  | strongUntil q l r | weakUntil q l r =>
    cases q with
    | all =>
      obtain ⟨rfl, -⟩ := eq_inside_of_proceed hw (by simp) h
      exact .inr (.inr rfl)
    | some => cases hu
  | within e v =>
    cases h
    exact hc rfl

theorem Formula.unmet_unfoldTemporal {c : Context} {p : Position} {o : Obligation}
    (hu : f.isUniversal = true) (hw : p.window = ∅)
    (hc : f.isEventuality = true → ∀ i, c.history.get? i ≠ none →
      Relation.TransGen (f.Onward g) i c.node)
    (h : f.unfoldTemporal p = .obligation o) : o.Unmet g c := by
  cases f with
  | atom => cases h
  | not e | and l r | within e v =>
    cases h
    trivial
  | or l r | implies l r =>
    cases h
    exact fun _ => trivial
  | next q e =>
    cases q with
    | all =>
      cases h
      trivial
    | some => cases hu
  | always q e =>
    cases q with
    | all =>
      obtain ⟨rfl, -⟩ := eq_inside_of_proceed hw (by simp) h
      exact fun hf => by cases hf
    | some => cases hu
  | eventually q e | strongUntil q l r =>
    cases q with
    | all =>
      obtain ⟨rfl, -⟩ := eq_inside_of_proceed hw (by simp) h
      exact fun hends _ => ⟨hends, hc rfl⟩
    | some => cases hu
  | weakUntil q l r =>
    cases q with
    | all =>
      obtain ⟨rfl, -⟩ := eq_inside_of_proceed hw (by simp) h
      exact fun _ hf => by cases hf
    | some => cases hu

namespace Search

/-- What is found of a precondition is right. -/
def Truthful (g : Kripke) (s : Search) (p : Precondition) (i : NodeId) : Finding → Prop
  | .holds => s.Honest g → p.formula.Holds g i
  | .fails x => x.violation.isBudget = false ∧ (s.Honest g → ¬ p.formula.Holds g i)
  | .budget _ => False

/-- The result of a session tells about its precondition. -/
theorem Due.truthful {c : Context} {p : Precondition} {i : SessionId} {result : SessionResult}
    {finding : Finding} (h : s.Due g f (.outcome i result))
    (hkey : s.key? i = some (c.inquiry p.formula).sessionKey)
    (hr : s.result? (some i) = some result) (hf : Finding.ofResult? result = some finding) :
    s.Truthful g p c.node finding := by
  cases result with
  | pending => cases hf
  | pass =>
    cases hf
    exact fun hh => hh i _ hkey hr
  | fail x =>
    cases hf
    obtain ⟨hb, k, hk, hfalse⟩ := h
    obtain rfl := Option.some.inj (hkey.symm.trans hk)
    exact ⟨hb, hfalse⟩
  | exceeded x => exact absurd h id

theorem Due.react {c : Context} {link : Option RevisitId} {o : Obligation} {p : Precondition}
    (h : s.Due g f (.todo c link (.revisit o p))) {finding : Finding}
    (hf : s.Truthful g p c.node finding) : s.Due g f ((p.react c finding).work c link o) := by
  obtain ⟨hflat, hdue⟩ := h
  cases finding with
  | holds =>
    unfold Precondition.react
    cases hk : p.kind with
    | required =>
      refine ⟨hflat.resolve_left (by simp [hk]), fun hh => ?_⟩
      simp only [Obligation.Owes, Obligation.Unmet, hk] at hdue
      exact ⟨fun ha => ((hdue hh).1 ha).2, (hdue hh).2⟩
    | skip => trivial
    | ignored =>
      refine ⟨rfl, fun hh ha => ?_⟩
      simp only [Obligation.Owes, hk] at hdue
      exact (hdue hh).1 ha (hf hh)
  | fails x =>
    unfold Precondition.react
    cases hk : p.kind with
    | required =>
      refine ⟨hf.1, fun hh ha => ?_⟩
      simp only [Obligation.Owes, hk] at hdue
      exact hf.2 hh ((hdue hh).1 ha).1
    | skip =>
      refine ⟨hflat.resolve_left (by simp [hk]), fun hh => ?_⟩
      simp only [Obligation.Owes, Obligation.Unmet, hk] at hdue
      exact ⟨fun ha => ((hdue hh).1 ha).resolve_left (hf.2 hh), (hdue hh).2 (hf.2 hh)⟩
    | ignored => trivial
  | budget x => exact absurd hf id

theorem Due.mono {x : Work} (he : s.Extends t) (h : s.Due g f x) : t.Due g f x := by
  cases x with
  | job j =>
    refine ⟨h.1, fun hh => ?_⟩
    obtain ⟨haim, hloop⟩ := h.2 (hh.of_extends he)
    exact ⟨fun ha => haim (ha.of_extends he), hloop⟩
  | todo c link o =>
    refine ⟨h.1, fun hh => ?_⟩
    obtain ⟨haim, hloop⟩ := h.2 (hh.of_extends he)
    exact ⟨fun ha => haim (ha.of_extends he), hloop⟩
  | done => trivial
  | fail session x => exact ⟨h.1, fun hh ha => h.2 (hh.of_extends he) (ha.of_extends he)⟩
  | outcome i r =>
    cases r with
    | pending | pass => trivial
    | fail x =>
      obtain ⟨hb, k, hk, hfalse⟩ := h
      exact ⟨hb, k, he.key i k hk, fun hh => hfalse (hh.of_extends he)⟩
    | exceeded x => exact h

/-- Without windows, what has to hold is handed on. -/
theorem due_hands (g : Kripke) (base : Nat) (hu : f.isUniversal = true)
    (hf : f.isWindowFree = true) :
    Hands g base (fun s x => s.InScope f x ∧ s.Reached f x) (Due g f) where
  mono := Due.mono
  unfold := by
    intro s j node u hv _ hp h hn hunfold
    obtain ⟨-, hpart, -⟩ := hp
    have hw : j.window = ∅ := (hpart.isWindowFree hf).2
    have hi : j.node.index < g.size := (Array.getElem?_eq_some_iff.mp hn).1
    unfold Formula.unfold at hunfold
    split at hunfold
    · obtain ⟨judgement, hj, hu⟩ := exists_of_bind_eq_ok hunfold
      rcases judge_of_window_eq_empty hw hn hj with ⟨rfl, -⟩ | ⟨rfl, hnot⟩
      · cases hu
        trivial
      · cases hu
        exact ⟨rfl, fun hh ha => hnot ((h.2 hh).1 ha)⟩
    · have hunfold := Except.ok.inj hunfold
      cases u with
      | pass => trivial
      | fail v =>
        obtain ⟨rfl, hc, he⟩ := unfoldTemporal_eq_fail hunfold
        refine ⟨rfl, fun hh ha => ?_⟩
        exact not_holds_of_cycle he ((h.2 hh).2 he _ ((Context.inCycle_iff hw).mp hc))
          ((h.2 hh).1 ha)
      | obligation o =>
        have hju := hpart.isUniversal hu
        refine ⟨flat_unfoldTemporal hju hw h.1 hunfold, fun hh => ⟨fun ha => ?_, ?_⟩⟩
        · exact (holds_iff_owes hw hi hunfold).mp ((h.2 hh).1 ha)
        · exact unmet_unfoldTemporal hju hw (h.2 hh).2 hunfold
  spawn := by
    intro s c link o jobs _ _ hp h hj j hjm
    cases o with
    | here e =>
      cases hj
      obtain rfl := List.mem_singleton.mp hjm
      have hempty : c.history = ∅ := h.1
      refine ⟨fun _ => hempty, fun hh => ⟨(h.2 hh).1, fun _ i hi => ?_⟩⟩
      exact absurd (by rw [hempty]; rfl) hi
    | step e =>
      cases hj
      obtain ⟨d, hd, rfl⟩ := List.mem_map.mp hjm
      exact ⟨fun _ => rfl, fun hh => ⟨fun ha => (h.2 hh).1 ha d hd, fun _ i hi => absurd rfl hi⟩⟩
    | successors e =>
      cases hj
      obtain ⟨d, hd, rfl⟩ := List.mem_map.mp hjm
      refine ⟨fun hno => ?_, fun hh => ⟨fun ha => (h.2 hh).1 ha d hd, fun he i hi => ?_⟩⟩
      · have hongoing : e.isOngoing = true := h.1
        cases hno.symm.trans hongoing
      · obtain ⟨hends, hloop⟩ := (h.2 hh).2 he
        have hstep : e.Onward g c.node d.target := ⟨⟨d, hd, rfl⟩, hends⟩
        simp only [Context.follow, Context.leave, SortedMap.get?_insert] at hi
        split at hi
        · next heq =>
          obtain rfl : i = c.node := by simpa using heq
          exact .single hstep
        · exact (hloop i hi).tail hstep
    | constrain e v =>
      obtain ⟨-, hpart, -⟩ := hp
      cases (Part.isWindowFree hpart hf).1
    | revisit o p => cases hj
  judge := by
    intro s c link o p node judgement _ hp h _ hn hj
    have hw : c.window = ∅ := (hp.2.1.1.isWindowFree hf).2
    refine h.react ?_
    rcases judge_of_window_eq_empty hw hn hj with ⟨rfl, hholds⟩ | ⟨rfl, hnot⟩
    · exact fun _ => hholds
    · exact ⟨rfl, fun _ => hnot⟩
  answer := by
    intro s c link o p i result finding _ _ h _ _ hkey hr _ hout hfinding _
    exact h.react (hout.truthful hkey hr hfinding)
  require := by
    intro s c link o p _ _ h _ hk
    have he := s.extends_suspend ⟨c, o, p, link⟩
    refine ⟨fun _ => rfl, fun hh => ⟨fun ha => ?_, fun _ i hi => absurd rfl hi⟩⟩
    have hdue := (h.2 (hh.of_extends he)).1 (ha.of_extends he)
    simp only [Obligation.Owes, hk] at hdue
    exact hdue.1
  inquire := by
    intro s c link o p _ _ _ _ _ _
    refine ⟨fun _ => rfl, fun _ => ⟨fun ha => ?_, fun _ i hi => absurd rfl hi⟩⟩
    exact ha _ (Numbered.get?_concat_self _ _)
  resume := by
    intro s c i e _ hp _ hi _ _ h _
    obtain ⟨e', he', -, hk⟩ := hp.1 i rfl
    obtain rfl := Option.some.inj (hi.symm.trans he')
    obtain ⟨hflat, hdue⟩ := h
    simp only [Obligation.Owes, Obligation.Unmet, hk] at hdue
    exact ⟨hflat.resolve_left (by simp [hk]), fun hh => ⟨fun ha => ((hdue hh).1 ha).2, (hdue hh).2⟩⟩
  exceed := by
    intro s i x _ _ h hb
    cases hb.symm.trans h.1
  settle := by
    intro s i x hv _ h _ hopen
    obtain ⟨k, hk⟩ := hv.key?_of_result? (i := i) (by rw [hopen]; simp)
    refine ⟨h.1, k, hk, fun hh hholds => h.2 hh fun k' hk' => ?_⟩
    obtain rfl := Option.some.inj (hk.symm.trans hk')
    exact hholds
  pass := by intros; trivial

end Search

theorem Formula.isWindowFree_current {fs : List Formula}
    (hw : ∀ f ∈ fs, f.isWindowFree = true) : (current fs).isWindowFree = true := by
  cases fs with
  | nil => rfl
  | cons f fs => exact isWindowFree_universal (hw f List.mem_cons_self)

/-- In a check of requirements without windows, whatever is looked into has to hold. -/
theorem Course.due {order : PendingOrder} {fs : List Formula} {past : Search}
    (h : Course g order fs past s) (hw : ∀ f ∈ fs, f.isWindowFree = true) :
    s.All past.revisits.length (s.Due g (current fs)) := by
  refine h.all (P := fun f s x => s.InScope f x ∧ s.Reached f x) (Q := fun f s => s.Due g f)
    (fun f hf base => Search.due_hands g base (isUniversal_universal f)
      (isWindowFree_universal (hw f hf))) (fun _ hc _ => hc.inScope.and hc.reached)
    (fun f _ i hi s => ?_) (fun f f' s i r hr => ?_)
    fun _ hc _ hs => hc.inScope.parked_of_idle hc.valid_accounts.1 hc.valid_accounts.2 hs
  · exact ⟨fun _ => rfl, fun _ => ⟨fun ha => ha i hi, fun _ i hi => absurd rfl hi⟩⟩
  · cases r with
    | pending | pass => trivial
    | fail | exceeded => exact hr

end CostCTL
