import CostCTL.Proofs.Admissible

/-!
# Windows within windows

Validation goes down a formula and merges the windows that it passes, and it stops at the first
conflict. A conflict is never undone by further statements (`Window.reconcile_mono`), so windows can
be merged one after the other in any order, and what is accepted are the formulas in which any
windows that stand around one place leave some cost together (`Formula.IsWellFormed`).
-/

namespace CostCTL

/-! ### Merging -/

namespace Window

variable {u v w : Window} {ws : List Window} {x : Statement}

/-- The statements of all windows. -/
def join (ws : List Window) : Window := ofList (ws.flatMap toList)

theorem join_nil : join [] = ∅ := rfl

theorem mem_join : x ∈ (join ws).toList ↔ ∃ w ∈ ws, x ∈ w.toList :=
  SortedSet.mem_ofList.trans List.mem_flatMap

theorem join_perm {vs : List Window} (h : vs.Perm ws) : join vs = join ws :=
  ext_mem fun x => by simp only [mem_join, h.mem_iff]

theorem union_join_cons : (v.union w).union (join ws) = v.union (join (w :: ws)) := by
  refine ext_mem fun x => ?_
  simp only [mem_union, mem_join, List.mem_cons, exists_eq_or_imp, or_assoc]

theorem join_append_singleton : (join ws).union w = join (ws ++ [w]) := by
  refine ext_mem fun x => ?_
  simp only [mem_union, mem_join, List.mem_append, List.mem_singleton, or_and_right, exists_or,
    exists_eq_left]

/-- A conflict stays if statements are added: what bounds a symbol from above still does, and no
amount is admitted that was not. -/
theorem isEmpty_admissible_mono {s : Symbol} (h : v.toList ⊆ w.toList)
    (hv : (v.admissible s).isEmpty = true) : (w.admissible s).isEmpty = true := by
  have hon : v.on s ⊆ w.on s := List.filter_subset _ h
  obtain ⟨⟨x, hx, hcap⟩, hnone⟩ := isEmpty_admissible_iff.mp hv
  refine isEmpty_admissible_iff.mpr ⟨⟨x, hon hx, hcap⟩, ?_⟩
  rintro ⟨a, ha⟩
  exact hnone ⟨a, fun y hy => ha y (hon hy)⟩

theorem reconcile_mono (h : v.toList ⊆ w.toList) (hw : w.reconcile = .ok ()) :
    v.reconcile = .ok () := by
  rw [reconcile_eq_ok_iff] at hw ⊢
  refine fun s => Bool.eq_false_iff.mpr fun hv => ?_
  have hempty := isEmpty_admissible_mono h hv
  rw [hw s] at hempty
  cases hempty

/-- Windows can be merged one after the other if all their statements together leave some cost. -/
theorem foldlM_merge_eq_ok_iff (hv : v.reconcile = .ok ()) :
    ws.foldlM merge v = .ok u ↔
      u = v.union (join ws) ∧ (v.union (join ws)).reconcile = .ok () := by
  induction ws generalizing v with
  | nil =>
    rw [join_nil, union_empty_right]
    exact ⟨fun h => by cases h; exact ⟨rfl, hv⟩, fun h => h.1 ▸ rfl⟩
  | cons w ws ih =>
    rw [← union_join_cons, List.foldlM_cons]
    constructor
    · intro h
      obtain ⟨v', hm, h⟩ := Formula.exists_of_bind_eq_ok h
      obtain ⟨rfl, hok⟩ := merge_eq_ok_iff.mp hm
      exact (ih hok).mp h
    · intro h
      -- the windows merged first have no conflict, as there is none in the end
      have hok : (v.union w).reconcile = .ok () :=
        reconcile_mono (fun x hx => mem_union.mpr (.inl hx)) h.2
      rw [merge_eq_ok_iff.mpr ⟨rfl, hok⟩]
      exact (ih hok).mpr h

end Window

/-! ### Validation -/

/-- Every bound of a window is given in a unit of its symbol. -/
theorem Window.validate_eq_ok_iff {w : Window} :
    w.validate = .ok () ↔ ∀ x ∈ w.toList, x.bound.symbol = x.symbol := by
  unfold validate
  induction w.toList with
  | nil => exact ⟨nofun, fun _ => rfl⟩
  | cons x l ih =>
    rw [List.forall_mem_cons, ← ih]
    by_cases hx : x.bound.symbol = x.symbol <;>
      simp [List.forM, Statement.validate, hx, bind, Except.bind]

namespace Formula

variable {d e f : Formula} {u v w : Window} {us ws : List Window}

/-- The formula `e` stands in `f` within these windows, the outermost first. -/
inductive Chain : Formula → List Window → Formula → Prop where
  | self (f : Formula) : Chain f [] f
  | operand {f d e : Formula} {ws : List Window} (hd : d ∈ f.operands) (h : Chain d ws e) :
    Chain f ws e
  | inner {f e : Formula} {w : Window} {ws : List Window} (h : Chain f ws e) :
    Chain (within f w) (w :: ws) e

/-- What has to hold of all that stands in a formula has to hold of the formula and of all that
stands in its operands, or in what its window is on. -/
theorem forall_chain_iff {P : List Window → Formula → Prop} :
    (∀ ws e, f.Chain ws e → P ws e) ↔
      P [] f ∧ (∀ d ∈ f.operands, ∀ ws e, d.Chain ws e → P ws e) ∧
        ∀ d w, f = within d w → ∀ ws e, d.Chain ws e → P (w :: ws) e := by
  constructor
  · intro h
    refine ⟨h [] f (.self f), fun d hd ws e hn => h ws e (.operand hd hn), ?_⟩
    rintro d w rfl ws e hn
    exact h (w :: ws) e (.inner hn)
  · rintro ⟨hself, hoperand, hinner⟩ ws e hn
    cases hn with
    | self => exact hself
    | operand hd hn => exact hoperand _ hd ws e hn
    | inner hn => exact hinner _ _ rfl _ e hn

/-- Atoms have the right shape, windows are on path formulas and have their bounds in fitting units,
and any of the windows around one place leave some cost together. -/
structure IsWellFormed (f : Formula) : Prop where
  atoms : ∀ ws a, f.Chain ws (atom a) → a.validate = .ok ()
  placed : ∀ ws e w, f.Chain ws (within e w) → e.isPath = true
  measured : ∀ ws e w, f.Chain ws (within e w) → ∀ x ∈ w.toList, x.bound.symbol = x.symbol
  chains : ∀ ws e, f.Chain ws e → ∀ vs, vs.Sublist ws → (Window.join vs).reconcile = .ok ()

/-- What is asked of a formula for itself. -/
def IsShaped : Formula → Prop
  | atom a => a.validate = .ok ()
  | within f w => f.isPath = true ∧ ∀ x ∈ w.toList, x.bound.symbol = x.symbol
  | _ => True

/-- What is asked of a formula that stands within the windows `ws`. -/
def IsSoundIn (ws : List Window) (e : Formula) : Prop :=
  e.IsShaped ∧ (Window.join ws).reconcile = .ok ()

/-- No windows around a place conflict if all of them together do not. -/
theorem isWellFormed_iff : f.IsWellFormed ↔ ∀ ws e, f.Chain ws e → e.IsSoundIn ws := by
  constructor
  · refine fun h ws e hn => ⟨?_, h.chains ws e hn ws (List.Sublist.refl ws)⟩
    cases e with
    | atom a => exact h.atoms ws a hn
    | within e w => exact ⟨h.placed ws e w hn, h.measured ws e w hn⟩
    | _ => trivial
  · intro h
    refine ⟨fun ws a hn => (h ws _ hn).1, fun ws e w hn => (h ws _ hn).1.1,
      fun ws e w hn => (h ws _ hn).1.2, fun ws e hn vs hvs => ?_⟩
    refine Window.reconcile_mono (fun x hx => ?_) (h ws e hn).2
    obtain ⟨w, hw, hx⟩ := Window.mem_join.mp hx
    exact Window.mem_join.mpr ⟨w, hvs.subset hw, hx⟩

/-- A connective is checked by checking its operands within the same windows. -/
theorem validateUnder_eq_ok_iff_operands (hf : f.operands ≠ []) :
    f.validateUnder v = .ok () ↔ ∀ d ∈ f.operands, d.validateUnder v = .ok () := by
  cases f with
  | atom | within => exact absurd rfl hf
  | not f | always q f | eventually q f | next q f => simp [operands, validateUnder]
  | and l r | or l r | implies l r | strongUntil q l r | weakUntil q l r =>
    simp only [operands, validateUnder, List.forall_mem_cons, List.not_mem_nil, false_implies,
      implies_true, and_true]
    cases l.validateUnder v <;> simp [bind, Except.bind]

theorem validateUnder_atom_eq_ok_iff {a : Atom} :
    (atom a).validateUnder v = .ok () ↔ a.validate = .ok () := by
  rw [validateUnder]
  cases a.validate <;> simp [Except.mapError]

/-- A window is checked for itself, and with the windows around it, before what it is on. -/
theorem validateUnder_within_eq_ok_iff :
    (within f w).validateUnder v = .ok () ↔ (within f w).IsShaped ∧
      (v.union w).reconcile = .ok () ∧ f.validateUnder (v.union w) = .ok () := by
  rw [IsShaped, ← Window.validate_eq_ok_iff, validateUnder, Window.merge]
  cases f.isPath with
  | false => simp [bind, Except.bind]
  | true =>
    cases w.validate with
    | error => simp [bind, Except.bind, Except.mapError]
    | ok =>
      cases (v.union w).reconcile with
      | error => simp [bind, Except.bind, Except.mapError]
      | ok => simp [bind, Except.bind, Except.mapError, pure, Except.pure]

/-- Validation within windows that leave some cost accepts the formulas in which all is sound there.
The windows around a place grow by one where a window is entered, in both readings. -/
theorem validateUnder_eq_ok_iff (hus : (Window.join us).reconcile = .ok ()) :
    f.validateUnder (Window.join us) = .ok () ↔
      ∀ ws e, f.Chain ws e → e.IsSoundIn (us ++ ws) := by
  induction f generalizing us with
  | atom a =>
    rw [forall_chain_iff, validateUnder_atom_eq_ok_iff]
    simp [IsSoundIn, IsShaped, operands, hus]
  | within f w ih =>
    rw [forall_chain_iff, validateUnder_within_eq_ok_iff, Window.join_append_singleton]
    constructor
    · rintro ⟨hshape, hok, hf⟩
      refine ⟨⟨hshape, ?_⟩, fun d hd => absurd hd List.not_mem_nil, ?_⟩
      · rwa [List.append_nil]
      · rintro d u ⟨⟩ ws e hn
        rw [List.append_cons]
        exact (ih hok).mp hf ws e hn
    · rintro ⟨hself, -, hinner⟩
      have hin : ∀ ws e, f.Chain ws e → e.IsSoundIn ((us ++ [w]) ++ ws) := fun ws e hn => by
        rw [← List.append_cons]
        exact hinner f w rfl ws e hn
      have hok : (Window.join (us ++ [w])).reconcile = .ok () := by
        simpa using (hin [] f (.self f)).2
      exact ⟨hself.1, hok, (ih hok).mpr hin⟩
  | not f ih | always q f ih | eventually q f ih | next q f ih =>
    rw [forall_chain_iff, validateUnder_eq_ok_iff_operands (by simp [operands])]
    simp [IsSoundIn, IsShaped, operands, hus, ih hus]
  | and l r ihl ihr | or l r ihl ihr | implies l r ihl ihr | strongUntil q l r ihl ihr
    | weakUntil q l r ihl ihr =>
    rw [forall_chain_iff, validateUnder_eq_ok_iff_operands (by simp [operands])]
    simp [IsSoundIn, IsShaped, operands, hus, ihl hus, ihr hus]

/-- Validation accepts the well-formed formulas and no others. The windows that it passes may be
merged in any order: if they can be, the result is all of their statements. -/
theorem validate_exact :
    (∀ f : Formula, f.validate = .ok () ↔ f.IsWellFormed) ∧
    ∀ ws vs : List Window, vs.Perm ws → ∀ u, vs.foldlM Window.merge ∅ = .ok u ↔
      u = Window.join ws ∧ (Window.join ws).reconcile = .ok () := by
  have hnil : (Window.join []).reconcile = .ok () := by decide
  refine ⟨fun f => ?_, fun ws vs hp u => ?_⟩
  · rw [isWellFormed_iff]
    exact validateUnder_eq_ok_iff hnil
  · rw [← Window.join_nil, Window.foldlM_merge_eq_ok_iff hnil, Window.join_nil,
      Window.union_empty_left, Window.join_perm hp]

/-- Three windows of which any two leave some time, but not all three. -/
theorem validate_exact_three :
    let bound (r : Relation) (n : Amount) : Window := .ofList [⟨.time, r, ⟨n, ⟨.time, .pico⟩⟩⟩]
    let upTo (f : Formula) : Formula :=
      .within (.always .all (.within (.always .all f) (bound .ne 0))) (bound .le 1)
    (upTo .falsum).IsWellFormed ∧
      ¬ (upTo (.within (.always .all .falsum) (bound .ne 1))).IsWellFormed ∧
      ∀ u, [bound .ne 1, bound .le 1, bound .ne 0].foldlM Window.merge ∅ ≠ .ok u := by
  intro bound upTo
  refine ⟨(validate_exact.1 _).mp (by decide), mt (validate_exact.1 _).mpr (by decide), ?_⟩
  intro u hu
  have hp : [bound .ne 1, bound .le 1, bound .ne 0].Perm
      [bound .le 1, bound .ne 0, bound .ne 1] := by decide
  exact absurd ((validate_exact.2 _ _ hp u).mp hu).2 (by decide)

end Formula

end CostCTL
