import CostCTL.Proofs.Scope

/-!
# Formulas that can be evaluated

A search looks at state formulas as a whole, from left to right and only as far as needed, so an atom
without value does no harm where it is not met. What it takes for a search is that the largest state
formulas in the requirement have a value at every node (`Formula.Evaluates`). This is handed on to
all work (`Course.evaluated`).
-/

namespace CostCTL

variable {g : Kripke} {s t : Search} {f : Formula}

namespace Formula

/-- The state formula has a value at every node. -/
def IsValuedOn (g : Kripke) (f : Formula) : Prop :=
  ∀ i node, g.node? i = some node → ∃ b, f.holdsAt node i = .ok b

/-- The largest state formulas in it have a value at every node. -/
def Evaluates (g : Kripke) : Formula → Prop
  | atom a => (atom a).IsValuedOn g
  | not f | always _ f | eventually _ f | next _ f | within f _ => f.Evaluates g
  | and l r => if l.isState && r.isState then (and l r).IsValuedOn g
    else l.Evaluates g ∧ r.Evaluates g
  | or l r => if l.isState && r.isState then (or l r).IsValuedOn g
    else l.Evaluates g ∧ r.Evaluates g
  | implies l r => if l.isState && r.isState then (implies l r).IsValuedOn g
    else l.Evaluates g ∧ r.Evaluates g
  | strongUntil _ l r | weakUntil _ l r => l.Evaluates g ∧ r.Evaluates g

theorem isValuedOn_not : (not f).IsValuedOn g ↔ f.IsValuedOn g := by
  constructor
  · intro h i node hn
    obtain ⟨b, hb⟩ := h i node hn
    obtain ⟨v, hv, -⟩ := exists_of_bind_eq_ok hb
    exact ⟨v, hv⟩
  · intro h i node hn
    obtain ⟨b, hb⟩ := h i node hn
    exact ⟨!b, by rw [holdsAt, hb]; rfl⟩

theorem IsValuedOn.and {l r : Formula} (hl : l.IsValuedOn g) (hr : r.IsValuedOn g) :
    (and l r).IsValuedOn g := by
  intro i node hn
  obtain ⟨a, ha⟩ := hl i node hn
  obtain ⟨b, hb⟩ := hr i node hn
  cases a with
  | true => exact ⟨b, by rw [holdsAt, ha]; exact hb⟩
  | false => exact ⟨false, by rw [holdsAt, ha]; rfl⟩

theorem IsValuedOn.or {l r : Formula} (hl : l.IsValuedOn g) (hr : r.IsValuedOn g) :
    (or l r).IsValuedOn g := by
  intro i node hn
  obtain ⟨a, ha⟩ := hl i node hn
  obtain ⟨b, hb⟩ := hr i node hn
  cases a with
  | true => exact ⟨true, by rw [holdsAt, ha]; rfl⟩
  | false => exact ⟨b, by rw [holdsAt, ha]; exact hb⟩

theorem IsValuedOn.implies {l r : Formula} (hl : l.IsValuedOn g) (hr : r.IsValuedOn g) :
    (implies l r).IsValuedOn g := by
  intro i node hn
  obtain ⟨a, ha⟩ := hl i node hn
  obtain ⟨b, hb⟩ := hr i node hn
  cases a with
  | true => exact ⟨b, by rw [holdsAt, ha]; exact hb⟩
  | false => exact ⟨true, by rw [holdsAt, ha]; rfl⟩

theorem isValuedOn_falsum : falsum.IsValuedOn g := fun _ _ _ => ⟨false, rfl⟩

/-- A state formula is evaluated as a whole. -/
theorem evaluates_iff_of_isState (hs : f.isState = true) : f.Evaluates g ↔ f.IsValuedOn g := by
  induction f with
  | atom => rfl
  | not f ih => exact (ih hs).trans isValuedOn_not.symm
  | and l r | or l r | implies l r =>
    rw [isState] at hs
    change (if l.isState && r.isState then _ else _) ↔ _
    rw [if_pos hs]
  | always | eventually | next | strongUntil | weakUntil | within => cases hs

theorem Evaluates.isValuedOn (h : f.Evaluates g) (hs : f.isState = true) : f.IsValuedOn g :=
  (evaluates_iff_of_isState hs).mp h

theorem IsValuedOn.evaluates (h : f.IsValuedOn g) (hs : f.isState = true) : f.Evaluates g :=
  (evaluates_iff_of_isState hs).mpr h

theorem Evaluates.operand {e : Formula} (h : f.Evaluates g) (hs : f.isState = false)
    (he : e ∈ f.operands) : e.Evaluates g := by
  cases f with
  | atom | within => cases he
  | not | always | eventually | next =>
    obtain rfl := List.mem_singleton.mp he
    exact h
  | and l r | or l r | implies l r =>
    rw [isState] at hs
    change if l.isState && r.isState then _ else l.Evaluates g ∧ r.Evaluates g at h
    rw [if_neg (by simp [hs])] at h
    simp only [operands, List.mem_cons, List.not_mem_nil, or_false] at he
    rcases he with rfl | rfl
    · exact h.1
    · exact h.2
  | strongUntil q l r | weakUntil q l r =>
    simp only [operands, List.mem_cons, List.not_mem_nil, or_false] at he
    rcases he with rfl | rfl
    · exact h.1
    · exact h.2

/-- Both operands are evaluated, so the connective is. -/
theorem Evaluates.and {l r : Formula} (hl : l.Evaluates g) (hr : r.Evaluates g) :
    (Formula.and l r).Evaluates g := by
  change if l.isState && r.isState then _ else _
  split
  · next hs =>
    rw [Bool.and_eq_true] at hs
    exact (hl.isValuedOn hs.1).and (hr.isValuedOn hs.2)
  · exact ⟨hl, hr⟩

theorem Evaluates.or {l r : Formula} (hl : l.Evaluates g) (hr : r.Evaluates g) :
    (Formula.or l r).Evaluates g := by
  change if l.isState && r.isState then _ else _
  split
  · next hs =>
    rw [Bool.and_eq_true] at hs
    exact (hl.isValuedOn hs.1).or (hr.isValuedOn hs.2)
  · exact ⟨hl, hr⟩

theorem Evaluates.implies {l r : Formula} (hl : l.Evaluates g) (hr : r.Evaluates g) :
    (Formula.implies l r).Evaluates g := by
  change if l.isState && r.isState then _ else _
  split
  · next hs =>
    rw [Bool.and_eq_true] at hs
    exact (hl.isValuedOn hs.1).implies (hr.isValuedOn hs.2)
  · exact ⟨hl, hr⟩

/-- State formulas have no quantifiers. -/
theorem universal_of_isState (hs : f.isState = true) : f.universal = f := by
  induction f with
  | atom => rfl
  | not f ih => rw [universal, ih hs]
  | and l r ihl ihr | or l r ihl ihr | implies l r ihl ihr =>
    rw [isState, Bool.and_eq_true] at hs
    rw [universal, ihl hs.1, ihr hs.2]
  | always | eventually | next | strongUntil | weakUntil | within => cases hs

theorem isState_universal (f : Formula) : f.universal.isState = f.isState := by
  induction f with
  | atom => rfl
  | not f ih => exact ih
  | and l r ihl ihr | or l r ihl ihr | implies l r ihl ihr => simp [universal, isState, ihl, ihr]
  | always q | eventually q | next q | strongUntil q | weakUntil q => cases q <;> rfl
  | within => rfl

theorem Evaluates.universal (h : f.Evaluates g) : f.universal.Evaluates g := by
  induction f with
  | atom => exact h
  | not f ih | within f w ih => exact ih h
  | and l r ihl ihr | or l r ihl ihr | implies l r ihl ihr =>
    change if l.isState && r.isState then _ else _ at h
    rw [Formula.universal]
    change if l.universal.isState && r.universal.isState then _ else _
    rw [l.isState_universal, r.isState_universal]
    split at h
    · next hs =>
      rw [if_pos hs]
      rw [Bool.and_eq_true] at hs
      rw [universal_of_isState hs.1, universal_of_isState hs.2]
      exact h
    · next hs =>
      rw [if_neg hs]
      exact ⟨ihl h.1, ihr h.2⟩
  | always q f ih | eventually q f ih | next q f ih => cases q <;> exact ih h
  | strongUntil q l r ihl ihr | weakUntil q l r ihl ihr =>
    have hl := ihl h.1
    have hr := ihr h.2
    cases q with
    | all => exact ⟨hl, hr⟩
    | some => exact ⟨hr, Evaluates.and (l := .not _) (r := .not _) hl hr⟩

/-- Where all atoms are defined, everything is evaluated. -/
theorem IsDefinedOn.evaluates (h : f.IsDefinedOn g) : f.Evaluates g := by
  induction f with
  | atom a =>
    intro i node hn
    obtain ⟨b, hb⟩ := h a List.mem_cons_self i node hn
    exact ⟨b, by rw [holdsAt, hb]; rfl⟩
  | not f ih | always q f ih | eventually q f ih | next q f ih | within f w ih => exact ih h
  | and l r ihl ihr =>
    exact .and (ihl fun a ha => h a (List.mem_append_left _ ha))
      (ihr fun a ha => h a (List.mem_append_right _ ha))
  | or l r ihl ihr =>
    exact .or (ihl fun a ha => h a (List.mem_append_left _ ha))
      (ihr fun a ha => h a (List.mem_append_right _ ha))
  | implies l r ihl ihr =>
    exact .implies (ihl fun a ha => h a (List.mem_append_left _ ha))
      (ihr fun a ha => h a (List.mem_append_right _ ha))
  | strongUntil q l r ihl ihr | weakUntil q l r ihl ihr =>
    exact ⟨ihl fun a ha => h a (List.mem_append_left _ ha),
      ihr fun a ha => h a (List.mem_append_right _ ha)⟩

/-- Looking at a node, no atom without value is met. -/
theorem Evaluates.holdsAt_ne_atom (h : f.Evaluates g) {i : NodeId} {node : Node}
    (hn : g.node? i = some node) (e : AtomError) : f.holdsAt node i ≠ .error (.atom e) := by
  intro he
  induction f with
  | atom a =>
    obtain ⟨b, hb⟩ := h i node hn
    rw [he] at hb
    cases hb
  | not f ih =>
    obtain he | ⟨b, -, he⟩ := error_of_bind_eq_error he
    · exact ih h he
    · cases he
  | and l r ihl ihr | or l r ihl ihr | implies l r ihl ihr =>
    change if l.isState && r.isState then _ else _ at h
    split at h
    · obtain ⟨b, hb⟩ := h i node hn
      rw [he] at hb
      cases hb
    · obtain he | ⟨b, -, he⟩ := error_of_bind_eq_error he
      · exact ihl h.1 he
      · cases b
        all_goals first | exact ihr h.2 he | cases he
  | always | eventually | next | strongUntil | weakUntil | within => cases he

theorem Evaluates.judge_ne_atom (h : f.Evaluates g) {p : Position}
    (hn : g.node? p.id = some p.node) (e : AtomError) : f.judge p ≠ .error (.atom e) := by
  intro he
  unfold judge at he
  split at he
  · cases he
  · cases he
  · obtain he | ⟨b, -, he⟩ := error_of_bind_eq_error he
    · exact h.holdsAt_ne_atom hn e he
    · cases b <;> cases he

theorem Evaluates.unfold_ne_atom (h : f.Evaluates g) {p : Position}
    (hn : g.node? p.id = some p.node) (e : AtomError) : f.unfold p ≠ .error (.atom e) := by
  intro he
  unfold Formula.unfold at he
  split at he
  · obtain he | ⟨judgement, -, he⟩ := error_of_bind_eq_error he
    · exact h.judge_ne_atom hn e he
    · cases judgement <;> cases he
  · cases he

end Formula

open Formula

/-! ### All work is evaluated -/

/-- The formulas that the obligation leads to are evaluated. -/
def Obligation.Evaluates (g : Kripke) : Obligation → Prop
  | .here f | .successors f | .step f | .constrain f _ => f.Evaluates g
  | .revisit o p => p.formula.Evaluates g ∧ o.Evaluates g

theorem Formula.Evaluates.unfoldTemporal (hf : f.Evaluates g) (hs : f.isState = false)
    {p : Position} {o : Obligation} (h : f.unfoldTemporal p = .obligation o) : o.Evaluates g := by
  have hproceed {e : Formula} {looped : Unfolding} {inside : Obligation}
      (h : proceed p e looped inside = .obligation o) (hl : looped ≠ .obligation o)
      (he : e.Evaluates g) (hi : inside.Evaluates g) : o.Evaluates g := by
    unfold proceed at h
    split at h
    · exact absurd h hl
    · split at h <;> cases h
      · exact he
      · exact hi
  cases f with
  | atom => cases h
  | not e =>
    cases h
    exact ⟨hf, isValuedOn_falsum⟩
  | and l r | or l r =>
    cases h
    exact ⟨hf.operand hs List.mem_cons_self, hf.operand hs (by simp [operands])⟩
  | implies l r =>
    cases h
    have hl : l.Evaluates g := hf.operand hs List.mem_cons_self
    exact ⟨hl, hf.operand hs (by simp [operands])⟩
  | always q e | eventually q e =>
    cases q with
    | all => exact hproceed h (by simp) hf ⟨hf, hf⟩
    | some =>
      cases h
      exact hf.universal
  | next q e =>
    cases q with
    | all =>
      cases h
      exact hf
    | some =>
      cases h
      exact hf.universal
  | strongUntil q l r | weakUntil q l r =>
    cases q with
    | all => exact hproceed h (by simp) hf ⟨hf.2, hf.1, hf⟩
    | some =>
      cases h
      exact Evaluates.universal hf
  | within e w =>
    cases h
    exact hf

namespace Search

/-- What the work looks at has a value. -/
def Evaluated (g : Kripke) (_ : Search) : Work → Prop
  | .job j => j.formula.Evaluates g
  | .todo _ _ o => o.Evaluates g
  | .done .. | .fail .. | .outcome .. => True

theorem Evaluated.react {c : Context} {link : Option RevisitId} {o : Obligation} {p : Precondition}
    (h : s.Evaluated g (.todo c link (.revisit o p))) (finding : Finding) :
    s.Evaluated g ((p.react c finding).work c link o) := by
  cases finding with
  | holds =>
    unfold Precondition.react
    cases p.kind with
    | required => exact h.2
    | skip | ignored => trivial
  | fails x =>
    unfold Precondition.react
    cases p.kind with
    | skip => exact h.2
    | required | ignored => trivial
  | budget x => trivial

theorem evaluated_hands (g : Kripke) (base : Nat) :
    Hands g base (fun _ _ => True) (Evaluated g) where
  mono := by
    intro s t x _ hx
    cases x with
    | job | todo => exact hx
    | done | fail | outcome => trivial
  unfold := by
    intro s j node u _ _ _ h _ hu
    cases u with
    | pass | fail => trivial
    | obligation o =>
      obtain ⟨hs, hu⟩ := unfoldTemporal_of_unfold hu
      exact Formula.Evaluates.unfoldTemporal h hs hu
  spawn := by
    intro s c link o jobs _ _ _ h hj j hjm
    cases o with
    | here e =>
      cases hj
      obtain rfl := List.mem_singleton.mp hjm
      exact h
    | successors e | step e =>
      cases hj
      obtain ⟨d, -, rfl⟩ := List.mem_map.mp hjm
      exact h
    | constrain e v =>
      rw [Obligation.jobs?] at hj
      split at hj
      · cases hj
        obtain rfl := List.mem_singleton.mp hjm
        exact h
      · cases hj
    | revisit o p => cases hj
  judge := by
    intro s c link o p node judgement _ _ h _ _ _
    exact h.react _
  answer := by
    intro s c link o p i result finding _ _ h _ _ _ _ _ _ _ _
    exact h.react _
  require := by
    intro s c link o p _ _ h _ _
    exact h.1
  inquire := by
    intro s c link o p _ _ h _ _ _
    exact h.1
  resume := by
    intro s c i e _ _ _ _ _ _ h _
    exact h.2
  exceed := by intros; trivial
  settle := by intros; trivial
  pass := by intros; trivial

end Search

theorem Course.evaluated {order : PendingOrder} {fs : List Formula} {past : Search}
    (h : Course g order fs past s) (hd : ∀ f ∈ fs, f.Evaluates g) :
    s.All past.revisits.length (s.Evaluated g) :=
  h.all (P := fun _ _ _ => True) (Q := fun _ => Search.Evaluated g)
    (fun _ _ base => Search.evaluated_hands g base) (fun _ _ hall => hall.imp fun _ _ => trivial)
    (fun f hf _ _ _ => (hd f hf).universal) (fun _ _ _ _ _ _ => trivial)
    fun _ hc _ hs => hc.inScope.parked_of_idle hc.valid_accounts.1 hc.valid_accounts.2 hs

end CostCTL
