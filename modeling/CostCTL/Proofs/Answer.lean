import CostCTL.Proofs.Chains
import CostCTL.Proofs.Evaluate
import CostCTL.Proofs.Reach
import CostCTL.Proofs.Termination

/-!
# Checks that answer

A specification that validates, and whose atoms have a value at every node, is answered: all its
requirements hold, or one of them is violated. Its windows can be merged wherever one stands within
another, also in universal form, and the formulas that are looked at have no other atoms.
-/

namespace CostCTL

variable {g : Kripke} {s : Search} {f : Formula} {base : Nat}

namespace Formula

/-- Every window in the formula can be merged with the windows around it. -/
def Reconciles : Formula → Window → Prop
  | atom _, _ => True
  | not f, w | always _ f, w | eventually _ f, w | next _ f, w => f.Reconciles w
  | and l r, w | or l r, w | implies l r, w | strongUntil _ l r, w | weakUntil _ l r, w =>
    l.Reconciles w ∧ r.Reconciles w
  | within f v, w => ∃ u, w.merge v = .ok u ∧ f.Reconciles u

theorem validateUnder_within {v w : Window} (h : (within f v).validateUnder w = .ok ()) :
    ∃ u, w.merge v = .ok u ∧ f.validateUnder u = .ok () := by
  obtain ⟨-, hok, h⟩ := validateUnder_within_eq_ok_iff.mp h
  exact ⟨w.union v, Window.merge_eq_ok_iff.mpr ⟨rfl, hok⟩, h⟩

theorem reconciles_of_validateUnder {w : Window} (h : f.validateUnder w = .ok ()) :
    f.Reconciles w := by
  induction f generalizing w with
  | atom => trivial
  | not f ih | always q f ih | eventually q f ih | next q f ih => exact ih h
  | and l r ihl ihr | or l r ihl ihr | implies l r ihl ihr | strongUntil q l r ihl ihr
    | weakUntil q l r ihl ihr =>
    obtain ⟨_, hl, hr⟩ := exists_of_bind_eq_ok h
    exact ⟨ihl hl, ihr hr⟩
  | within f v ih =>
    obtain ⟨u, hm, h⟩ := validateUnder_within h
    exact ⟨u, hm, ih h⟩

theorem Reconciles.universal {w : Window} (h : f.Reconciles w) : f.universal.Reconciles w := by
  induction f generalizing w with
  | atom => trivial
  | not f ih => exact ih h
  | and l r ihl ihr | or l r ihl ihr | implies l r ihl ihr => exact ⟨ihl h.1, ihr h.2⟩
  | always q f ih | eventually q f ih | next q f ih => cases q <;> exact ih h
  | strongUntil q l r ihl ihr | weakUntil q l r ihl ihr =>
    cases q with
    | all => exact ⟨ihl h.1, ihr h.2⟩
    | some => exact ⟨ihr h.2, ihl h.1, ihr h.2⟩
  | within f v ih =>
    obtain ⟨u, hu, h⟩ := h
    exact ⟨u, hu, ih h⟩

theorem Reconciles.operand {e : Formula} {w : Window} (h : f.Reconciles w) (he : e ∈ f.operands) :
    e.Reconciles w := by
  cases f with
  | atom | within => cases he
  | not | always | eventually | next =>
    obtain rfl := List.mem_singleton.mp he
    exact h
  | and | or | implies | strongUntil | weakUntil =>
    simp only [operands, List.mem_cons, List.not_mem_nil, or_false] at he
    rcases he with rfl | rfl
    · exact h.1
    · exact h.2

theorem Part.reconciles {e : Formula} {w u : Window} (h : Part f w e u) (hf : f.Reconciles w) :
    e.Reconciles u := by
  induction h with
  | self => exact hf
  | operand _ he ih => exact ih.operand he
  | negated _ ih => exact ih.1
  | inner _ hm ih =>
    obtain ⟨u', hu', h⟩ := ih
    cases hm.symm.trans hu'
    exact h

/-! ### Atoms -/

theorem atoms_operands {e : Formula} (h : e ∈ f.operands) : e.atoms ⊆ f.atoms := by
  cases f with
  | atom | within => cases h
  | not | always | eventually | next =>
    obtain rfl := List.mem_singleton.mp h
    exact List.Subset.refl _
  | and l r | or l r | implies l r | strongUntil q l r | weakUntil q l r =>
    simp only [operands, List.mem_cons, List.not_mem_nil, or_false] at h
    rcases h with rfl | rfl
    · exact List.subset_append_left _ _
    · exact List.subset_append_right _ _

theorem atoms_universal (f : Formula) : f.universal.atoms ⊆ f.atoms := by
  induction f with
  | atom => exact List.Subset.refl _
  | not f ih | within f w ih => exact ih
  | and l r ihl ihr | or l r ihl ihr | implies l r ihl ihr =>
    exact List.append_subset.mpr ⟨List.Subset.trans ihl (List.subset_append_left _ _),
      List.Subset.trans ihr (List.subset_append_right _ _)⟩
  | always q f ih | eventually q f ih | next q f ih => cases q <;> exact ih
  | strongUntil q l r ihl ihr | weakUntil q l r ihl ihr =>
    have hl := List.Subset.trans ihl (List.subset_append_left l.atoms r.atoms)
    have hr := List.Subset.trans ihr (List.subset_append_right l.atoms r.atoms)
    cases q with
    | all => exact List.append_subset.mpr ⟨hl, hr⟩
    | some => exact List.append_subset.mpr ⟨hr, List.append_subset.mpr ⟨hl, hr⟩⟩

theorem Part.atoms_subset {e : Formula} {w u : Window} (h : Part f w e u) : e.atoms ⊆ f.atoms := by
  induction h with
  | self => exact List.Subset.refl _
  | operand _ he ih => exact List.Subset.trans (atoms_operands he) ih
  | negated _ ih => exact List.Subset.trans (List.subset_append_left _ _) ih
  | inner _ _ ih => exact ih

theorem IsDefinedOn.mono {e : Formula} (h : f.IsDefinedOn g) (he : e.atoms ⊆ f.atoms) :
    e.IsDefinedOn g := fun a ha => h a (he ha)

/-- A formula without value at a node has an atom without value there. -/
theorem exists_atom_of_holdsAt {i : NodeId} {node : Node} {e : AtomError}
    (h : f.holdsAt node i = .error (.atom e)) : ∃ a ∈ f.atoms, a.evaluate node i = .error e := by
  induction f with
  | atom a =>
    rw [holdsAt] at h
    cases ha : a.evaluate node i with
    | ok b => rw [ha] at h; cases h
    | error x => rw [ha] at h; cases h; exact ⟨a, List.mem_cons_self, ha⟩
  | not f ih =>
    obtain h | ⟨b, -, h⟩ := error_of_bind_eq_error h
    · exact ih h
    · cases h
  | and l r ihl ihr | or l r ihl ihr | implies l r ihl ihr =>
    obtain h | ⟨b, -, h⟩ := error_of_bind_eq_error h
    · obtain ⟨a, ha, he⟩ := ihl h
      exact ⟨a, List.mem_append_left _ ha, he⟩
    · have hr : r.holdsAt node i = .error (.atom e) := by
        cases b
        all_goals first | exact h | cases h
      obtain ⟨a, ha, he⟩ := ihr hr
      exact ⟨a, List.mem_append_right _ ha, he⟩
  | always | eventually | next | strongUntil | weakUntil | within => cases h

theorem exists_atom_of_judge {p : Position} {e : AtomError} (h : f.judge p = .error (.atom e)) :
    ∃ a ∈ f.atoms, a.evaluate p.node p.id = .error e := by
  unfold judge at h
  split at h
  · cases h
  · cases h
  · obtain h | ⟨b, -, h⟩ := error_of_bind_eq_error h
    · exact exists_atom_of_holdsAt h
    · cases b <;> cases h

theorem exists_atom_of_unfold {p : Position} {e : AtomError} (h : f.unfold p = .error (.atom e)) :
    ∃ a ∈ f.atoms, a.evaluate p.node p.id = .error e := by
  unfold Formula.unfold at h
  split at h
  · obtain h | ⟨judgement, -, h⟩ := error_of_bind_eq_error h
    · exact exists_atom_of_judge h
    · cases judgement <;> cases h
  · cases h

theorem IsDefinedOn.holdsAt_ne_atom (h : f.IsDefinedOn g) {i : NodeId} {node : Node}
    (hn : g.node? i = some node) (e : AtomError) : f.holdsAt node i ≠ .error (.atom e) :=
  h.evaluates.holdsAt_ne_atom hn e

end Formula

open Formula

/-! ### Searches that do not stop -/

/-- A search for a formula whose windows can be merged stops only for an atom without value. -/
theorem Search.exists_atom_of_halts_stop (h : s.All base (s.Reached f)) (hf : f.Reconciles ∅)
    {e : Stop} (hs : s.Halts g (.stop e)) :
    ∃ a ∈ f.atoms, ∃ i node x, g.node? i = some node ∧ a.evaluate node i = .error x ∧
      e = .error (.malformed (.atom x)) := by
  cases hs with
  | @conflict n c link e w ts x ht he =>
    obtain ⟨u, hu, -⟩ := Part.reconciles (h.head ht _ rfl).2.1 hf
    rw [he] at hu
    cases hu
  | @unfold j ts node x ht hn he =>
    obtain ⟨a, ha, hx⟩ := exists_atom_of_unfold he
    exact ⟨a, (h.head ht _ rfl).2.1.atoms_subset ha, j.node, node, x, hn, hx, rfl⟩
  | @judge n c link o p ts node x ht hn he =>
    obtain ⟨a, ha, hx⟩ := exists_atom_of_judge he
    exact ⟨a, (h.head ht _ rfl).2.1.1.atoms_subset ha, c.node, node, x, hn, hx, rfl⟩

/-- If what it looks at has a value, it does not stop. -/
theorem Search.not_halts_stop (h : s.All base (s.Reached f)) (hf : f.Reconciles ∅)
    (hd : s.All base (s.Evaluated g)) (e : Stop) : ¬ s.Halts g (.stop e) := by
  intro hs
  cases hs with
  | @conflict n c link e w ts x ht he =>
    obtain ⟨u, hu, -⟩ := Part.reconciles (h.head ht _ rfl).2.1 hf
    rw [he] at hu
    cases hu
  | @unfold j ts node x ht hn he =>
    exact Formula.Evaluates.unfold_ne_atom (hd.head ht _ rfl).2 hn x he
  | @judge n c link o p ts node x ht hn he =>
    exact Formula.Evaluates.judge_ne_atom (hd.head ht _ rfl).2.1 hn x he

theorem Specification.validate_of_mem {spec : Specification} (hv : spec.validate = .ok ())
    (hf : f ∈ spec) : f.validate = .ok () := by
  induction spec with
  | nil => cases hf
  | cons e spec ih =>
    obtain ⟨_, he, hrest⟩ := exists_of_bind_eq_ok hv
    rcases List.mem_cons.mp hf with rfl | hf
    · exact he
    · exact ih hrest hf

/-- A check of a valid specification ends otherwise than with its last requirement only for a
requirement that is violated, or for an atom of one that has no value at a node. -/
theorem Checker.exists_of_check_error_of_valid {c : Checker} {spec : Specification}
    (hl : c.settings.popLimit = none) (hv : spec.validate = .ok ()) {e : Stop}
    (h : (c.check spec).1.result = .error e) :
    (∃ k f x past u, spec[k]? = some f ∧ e = .error (.unsatisfied k f x) ∧
      Course c.graph c.store.config.order (f :: (spec.take k).reverse) past u ∧
      u.Halts c.graph (.refuted x)) ∨
    ∃ f ∈ spec, ∃ a ∈ f.atoms, ∃ i node x, c.graph.node? i = some node ∧
      a.evaluate node i = .error x ∧ e = .error (.malformed (.atom x)) := by
  obtain ⟨k, f, hf, ⟨-, r, hr⟩ | ⟨past, u, hu, ⟨x, rfl, hx⟩ | hhalts⟩⟩ :=
    exists_of_check_error hl hv h
  · exact absurd (hr.lt_turnBound hl hf) (Nat.lt_irrefl _)
  · exact .inl ⟨k, f, x, past, u, hf, rfl, hu, hx⟩
  · have hmem := List.mem_of_getElem? hf
    have hrec := (reconciles_of_validateUnder (Specification.validate_of_mem hv hmem)).universal
    obtain ⟨a, ha, hx⟩ := Search.exists_atom_of_halts_stop hu.reached hrec hhalts
    exact .inr ⟨f, hmem, a, f.atoms_universal ha, hx⟩

/-- A check of a valid specification whose formulas are evaluated is answered by a requirement that
is violated, or by none. -/
theorem Checker.exists_of_check_error_of_evaluates {c : Checker} {spec : Specification}
    (hl : c.settings.popLimit = none) (hv : spec.validate = .ok ())
    (hd : ∀ f ∈ spec, f.Evaluates c.graph) {e : Stop} (h : (c.check spec).1.result = .error e) :
    ∃ k f x past u, spec[k]? = some f ∧ e = .error (.unsatisfied k f x) ∧
      Course c.graph c.store.config.order (f :: (spec.take k).reverse) past u ∧
      u.Halts c.graph (.refuted x) := by
  obtain ⟨k, f, hf, ⟨-, r, hr⟩ | ⟨past, u, hu, ⟨x, rfl, hx⟩ | hhalts⟩⟩ :=
    exists_of_check_error hl hv h
  · exact absurd (hr.lt_turnBound hl hf) (Nat.lt_irrefl _)
  · exact ⟨k, f, x, past, u, hf, rfl, hu, hx⟩
  · have hmem := List.mem_of_getElem? hf
    refine absurd hhalts (Search.not_halts_stop hu.reached ?_ (hu.evaluated fun f' hf' => ?_) e)
    · exact (reconciles_of_validateUnder (Specification.validate_of_mem hv hmem)).universal
    · rcases List.mem_cons.mp hf' with rfl | hf'
      · exact hd f' hmem
      · exact hd f' (List.mem_of_mem_take (List.mem_reverse.mp hf'))

/-- A check of a single requirement answers as its search ends. -/
theorem Checker.check_of_evaluates {c : Checker} (hl : c.settings.popLimit = none)
    (hv : f.validate = .ok ()) (hd : f.Evaluates c.graph) :
    ∃ past z, Course c.graph c.store.config.order [f] past z ∧
      ((z.Idle ∧ (c.check [f]).1.result = .ok ()) ∨
      ∃ x, z.Halts c.graph (.refuted x) ∧
        (c.check [f]).1.result = .error (.error (.unsatisfied 0 f x))) := by
  have hv' : Specification.validate [f] = .ok () := by
    change (f.validate >>= fun _ => pure ()) = _
    rw [hv]
    rfl
  cases hr : (c.check [f]).1.result with
  | ok =>
    obtain ⟨past, z, hz, hidle⟩ := exists_of_check_ok hl hv' hr
    exact ⟨past, z, hz, .inl ⟨hidle, rfl⟩⟩
  | error e =>
    obtain ⟨k, f', x, past, z, hk, rfl, hz, hx⟩ := exists_of_check_error_of_evaluates hl hv'
      (by simpa using hd) hr
    cases k with
    | zero =>
      cases hk
      exact ⟨past, z, hz, .inr ⟨x, hx, rfl⟩⟩
    | succ k => simp at hk

end CostCTL
