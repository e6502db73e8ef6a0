import CostCTL.Proofs.Answer
import CostCTL.Proofs.DepthFirst

/-!
# Checks without windows are exact

Depth first, a search for a requirement without windows comes to an end with all its visits finished,
unless the requirement is refuted (`Course.concludes`). In the first case the requirement holds at
the initial nodes, in the other it does not. The next requirement finds the visits and sessions of
those before as it needs them. So a check accepts what holds, and otherwise names the first
requirement that does not (`Checker.check_iff_holds`). What holds does not depend on the order of
edges, and neither does what a check without windows answers (`Checker.check_of_reorders`).
-/

namespace CostCTL

open Formula

variable {g : Kripke} {s z : Search} {f : Formula} {fs : List Formula} {past : Search}

namespace Search

/-- Nothing is left of what was begun, and the sessions that passed were right to. -/
structure Concluded (g : Kripke) (s : Search) : Prop where
  honest : s.Honest g
  alive : ∀ i r, ¬ s.Alive i r
  finished : ∀ k ∈ s.visited, s.Finished g k

theorem Concluded.start (order : PendingOrder) : (Search.start order).Concluded g where
  honest i k hk _ := by
    obtain ⟨n, -, hn⟩ := Numbered.get?_eq_some_iff.mp hk
    cases hn
  alive i r h := by
    obtain ⟨n, -, hn⟩ := Numbered.get?_eq_some_iff.mp h.record
    cases hn
  finished k hk := by cases hk

/-- The first jobs of a requirement can be done. -/
theorem Concluded.seed (h : s.Concluded g) (hc : Course g .depthFirst fs past s) (hs : s.Idle) :
    (s.seed g f.universal).Poised g (f :: fs) none none := by
  have halive (i : RevisitId) (r : Revisit) : ¬ (s.seed g f.universal).Alive i r :=
    fun hi => h.alive i r ⟨hi.record, hi.kind, hi.opened⟩
  refine ⟨⟨s, hc.seed hs f⟩, hs.2.1, rfl, h.honest, fun i k root hi _ _ => ?_,
    fun i r hi => absurd hi (halive i r), fun i r hi => absurd hi (halive i r),
    fun i r _ _ hi => absurd hi (halive i r)⟩
  obtain ⟨v, hiv, hpend⟩ := Option.map_eq_some_iff.mp hi
  exact absurd hpend (hc.inScope.settled_of_idle hc.valid_accounts.1 hc.valid_accounts.2 hs hiv)

end Search

/-- After requirements that were concluded, the next one is refuted or concluded. -/
theorem Course.concludes (h : Course g .depthFirst (f :: fs) past z) (hze : z.Ends g)
    (hw : ∀ e ∈ f :: fs, e.isWindowFree = true) (hpast : past.Concluded g) :
    z.Refuted g ∨ (z.Idle ∧ z.Concluded g ∧ ∀ i ∈ g.initial, f.Holds g i) := by
  obtain ⟨hidle, ⟨_, hc⟩, hmoves⟩ := h.of_cons
  have hp := hpast.seed (f := f) hc hidle
  have hq : (past.seed g f.universal).queue =
      [] ++ g.initial.toList.map (Job.root · f.universal) := by
    rw [Search.seed, hidle.2.2]
  have hcl (j : Job) (hj : j ∈ g.initial.toList.map (Job.root · f.universal)) :
      j.session = none ∧ j.link = none ∧ (past.seed g f.universal).Cleared g (.job j) := by
    obtain ⟨i, -, rfl⟩ := List.mem_map.mp hj
    exact ⟨rfl, rfl, fun k hk _ _ => .inl ((hpast.finished k hk).extends
      (Search.extends_seed _ _ _)), fun i hi => absurd rfl hi⟩
  rcases (Search.carries hw hze hp.valid hmoves).jobs hidle.1 hq hp fun j hj => .inr (hcl j hj) with
    href | ⟨t, hs, hret, hserved⟩
  · exact .inl href
  · cases hret with
    | settled _ hi => cases hi
    | opened ht hr hq ho =>
      -- nothing is left to do, so this is the end
      have hend : t.Idle := ⟨ht, hr, hq⟩
      obtain rfl := hze.unique (.inl hend) hp.valid hmoves hs.moves
      have hfin (k : VisitKey) (hk : k ∈ z.visited) : z.Finished g k :=
        (hs.visited k hk).elim
          (fun hk => (hpast.finished k hk).extends (Search.extends_seed _ _ _ |>.trans
            hs.moves.extends)) id
      refine .inr ⟨hend, ⟨(hs.honest hp.honest).honest ho, fun i r hi => ?_, hfin⟩, fun i hi => ?_⟩
      · have := hs.alive i r hi
        exact hpast.alive i r ⟨this.record, this.kind, this.opened⟩
      · have hfail : ¬ z.Failed none := fun hf => hf.not_open ho
        obtain ⟨-, hkey⟩ := (hserved _ (List.mem_map.mpr ⟨i, hi, rfl⟩) rfl).resolve_left hfail
        rw [← holds_universal]
        exact Search.holds_of_finished hkey rfl (fun k hk _ _ _ => hfin k hk) hfail

/-- When nothing is left to do, all requirements hold. -/
theorem Course.concluded (h : Course g .depthFirst fs past s) (hs : s.Idle)
    (hw : ∀ f ∈ fs, f.isWindowFree = true) :
    s.Concluded g ∧ ∀ f ∈ fs, ∀ i ∈ g.initial, f.Holds g i := by
  induction fs generalizing past s with
  | nil =>
    obtain ⟨-, rfl⟩ := h.eq_start
    exact ⟨.start _, fun f hf => by cases hf⟩
  | cons f fs ih =>
    obtain ⟨hidle, ⟨_, hc⟩, -⟩ := h.of_cons
    obtain ⟨hpast, hall⟩ := ih hc hidle fun e he => hw e (List.mem_cons_of_mem _ he)
    rcases h.concludes (.inl hs) hw hpast with ⟨⟨x, hx⟩, -⟩ | ⟨-, hconcluded, hf⟩
    · exact absurd hx hs.not_refuted
    · exact ⟨hconcluded, List.forall_mem_cons.mpr ⟨hf, hall⟩⟩

/-- What is refuted does not hold, if the sessions that passed were right to. -/
theorem Course.not_holds_of_refuted {order : PendingOrder} {x : Counterexample}
    (h : Course g order (f :: fs) past z) (hx : z.Halts g (.refuted x)) (hh : z.Honest g)
    (hw : ∀ e ∈ f :: fs, e.isWindowFree = true) : ∃ i ∈ g.initial, ¬ f.Holds g i := by
  obtain ⟨ht⟩ := hx
  by_contra hno
  push Not at hno
  refine (((h.due hw).head ht) _ rfl).2.2 hh fun i hi => ?_
  exact (holds_universal f i).mpr (hno i hi)

/-- Depth first, sessions are right to pass until a requirement is refuted. -/
theorem Course.honest_of_refuted (h : Course g .depthFirst (f :: fs) past z) {x : Counterexample}
    (hx : z.Halts g (.refuted x)) (hw : ∀ e ∈ f :: fs, e.isWindowFree = true) : z.Honest g := by
  obtain ⟨hidle, ⟨_, hc⟩, -⟩ := h.of_cons
  obtain ⟨hpast, -⟩ := hc.concluded hidle fun e he => hw e (List.mem_cons_of_mem _ he)
  rcases h.concludes (.inr ⟨x, hx⟩) hw hpast with ⟨-, hhonest⟩ | ⟨hz, -⟩
  · exact hhonest
  · exact absurd hx hz.not_refuted

/-- The result is right: it accepts what holds, or names the first requirement that does not. -/
def Specification.Judged (g : Kripke) (spec : Specification) (result : Except Stop Unit) : Prop :=
  (result = .ok () ∧ ∀ f ∈ spec, ∀ i ∈ g.initial, f.Holds g i) ∨
  ∃ k f x, spec[k]? = some f ∧ (∃ i ∈ g.initial, ¬ f.Holds g i) ∧
    (∀ e ∈ spec.take k, ∀ i ∈ g.initial, e.Holds g i) ∧
    result = .error (.error (.unsatisfied k f x))

/-- Results that are right agree on the requirement. -/
theorem Specification.Judged.agree {spec : Specification} {result result' : Except Stop Unit}
    (h : spec.Judged g result) (h' : spec.Judged g result') :
    (result = .ok () ∧ result' = .ok ()) ∨
    ∃ k f x x', result = .error (.error (.unsatisfied k f x)) ∧
      result' = .error (.error (.unsatisfied k f x')) := by
  rcases h with ⟨hok, hall⟩ | ⟨k, f, x, hf, ⟨i, hi, hnot⟩, hall, herr⟩
  · rcases h' with ⟨hok', -⟩ | ⟨k', f', x', hf', ⟨i', hi', hnot'⟩, -, -⟩
    · exact .inl ⟨hok, hok'⟩
    · exact absurd (hall f' (List.mem_of_getElem? hf') i' hi') hnot'
  · rcases h' with ⟨-, hall'⟩ | ⟨k', f', x', hf', ⟨i', hi', hnot'⟩, hall', herr'⟩
    · exact absurd (hall' f (List.mem_of_getElem? hf) i hi) hnot
    · -- neither of the two requirements comes before the other
      have hle : k ≤ k' := Nat.not_lt.mp fun hlt => hnot' <| hall f'
        (List.mem_of_getElem? ((List.getElem?_take_of_lt hlt).trans hf')) i' hi'
      have hle' : k' ≤ k := Nat.not_lt.mp fun hlt => hnot <| hall' f
        (List.mem_of_getElem? ((List.getElem?_take_of_lt hlt).trans hf)) i hi
      obtain rfl : k = k' := Nat.le_antisymm hle hle'
      obtain rfl := Option.some.inj (hf.symm.trans hf')
      exact .inr ⟨k, f, x, x', herr, herr'⟩

namespace Checker

/-- A check is right if its searches are: they come to an end where the requirements hold, and are
refuted where the last one does not. -/
theorem judged_of_course {c : Checker} {spec : Specification} (hl : c.settings.popLimit = none)
    (hv : spec.validate = .ok ()) (hd : ∀ f ∈ spec, f.IsDefinedOn c.graph)
    (hidle : ∀ {fs past s}, fs ⊆ spec → Course c.graph c.store.config.order fs past s → s.Idle →
      ∀ f ∈ fs, ∀ i ∈ c.graph.initial, f.Holds c.graph i)
    (hrefuted : ∀ {f fs past s x}, f :: fs ⊆ spec →
      Course c.graph c.store.config.order (f :: fs) past s → s.Halts c.graph (.refuted x) →
      ∃ i ∈ c.graph.initial, ¬ f.Holds c.graph i) :
    spec.Judged c.graph (c.check spec).1.result := by
  cases h : (c.check spec).1.result with
  | ok =>
    obtain ⟨past, s, hc, hs⟩ := exists_of_check_ok hl hv h
    have hall := hidle (fun f hf => List.mem_reverse.mp hf) hc hs
    exact .inl ⟨rfl, fun f hf => hall f (List.mem_reverse.mpr hf)⟩
  | error e =>
    obtain ⟨k, f, x, past, u, hf, rfl, hc, hx⟩ :=
      exists_of_check_error_of_evaluates hl hv (fun f hf => (hd f hf).evaluates) h
    have hsub : (spec.take k).reverse ⊆ spec :=
      fun e he => List.mem_of_mem_take (List.mem_reverse.mp he)
    have hnot := hrefuted (List.cons_subset.mpr ⟨List.mem_of_getElem? hf, hsub⟩) hc hx
    obtain ⟨hs, ⟨_, hc⟩, -⟩ := hc.of_cons
    exact .inr ⟨k, f, x, hf, hnot, fun e he => hidle hsub hc hs e (List.mem_reverse.mpr he), rfl⟩

/-- Depth first, checks without windows are right. -/
theorem judged_of_depthFirst {c : Checker} {spec : Specification}
    (hl : c.settings.popLimit = none) (ho : c.store.config.order = .depthFirst)
    (hv : spec.validate = .ok ()) (hw : ∀ f ∈ spec, f.isWindowFree = true)
    (hd : ∀ f ∈ spec, f.IsDefinedOn c.graph) : spec.Judged c.graph (c.check spec).1.result := by
  refine judged_of_course hl hv hd (fun hsub hc hs => ?_) fun hsub hc hx => ?_
  · rw [ho] at hc
    exact (hc.concluded hs fun f hf => hw f (hsub hf)).2
  · rw [ho] at hc
    have hw := fun f hf => hw f (hsub hf)
    exact hc.not_holds_of_refuted hx (hc.honest_of_refuted hx hw) hw

/-- Depth first, checks without windows are exact. A specification that validates, and whose atoms
have a value at every node, is accepted if and only if every requirement holds at every initial node.
Otherwise the check names the first requirement that does not. -/
theorem check_iff_holds (c : Checker) (spec : Specification) (hl : c.settings.popLimit = none)
    (ho : c.store.config.order = .depthFirst) (hv : spec.validate = .ok ())
    (hw : ∀ f ∈ spec, f.isWindowFree = true) (hd : ∀ f ∈ spec, f.IsDefinedOn c.graph) :
    ((c.check spec).1.result = .ok () ↔ ∀ f ∈ spec, ∀ i ∈ c.graph.initial, f.Holds c.graph i) ∧
    ((¬ ∀ f ∈ spec, ∀ i ∈ c.graph.initial, f.Holds c.graph i) →
      ∃ k f x, spec[k]? = some f ∧ (∃ i ∈ c.graph.initial, ¬ f.Holds c.graph i) ∧
        (∀ e ∈ spec.take k, ∀ i ∈ c.graph.initial, e.Holds c.graph i) ∧
        (c.check spec).1.result = .error (.error (.unsatisfied k f x))) := by
  rcases judged_of_depthFirst hl ho hv hw hd with
    ⟨hok, hall⟩ | ⟨k, f, x, hf, ⟨i, hi, hnot⟩, hall, herr⟩
  · exact ⟨iff_of_true hok hall, fun hno => absurd hall hno⟩
  · refine ⟨iff_of_false (by simp [herr]) fun hall => ?_, fun _ => ?_⟩
    · exact hnot (hall f (List.mem_of_getElem? hf) i hi)
    · exact ⟨k, f, x, hf, ⟨i, hi, hnot⟩, hall, herr⟩

/-- At the single node a check finds out what holds on its paths. -/
theorem check_iff_holds_loop :
    (Formula.and (.not (.eventually .all .falsum))
      (.next .some (.weakUntil .all (.not .falsum) .falsum))).Holds Kripke.loop ⟨0⟩ := by
  refine (check_iff_holds (small .loop .depthFirst) [.and (.not (.eventually .all .falsum))
    (.next .some (.weakUntil .all (.not .falsum) .falsum))] rfl rfl (by decide) (by decide)
    (fun f hf a ha i node hn => ?_)).1.mp (by decide +kernel) _ List.mem_cons_self ⟨0⟩ (by decide)
  obtain rfl := List.mem_singleton.mp hf
  obtain rfl : a = .const false := by simpa [atoms, falsum] using ha
  exact ⟨false, rfl⟩

end Checker

/-! ### The order of edges -/

/-- The graphs differ in the order of edges at most. -/
structure Kripke.Reorders (g g' : Kripke) : Prop where
  nodes : g'.nodes = g.nodes
  initial : g'.initial = g.initial
  edges : ∀ i, (g'.successors i).Perm (g.successors i)

namespace Kripke.Reorders

variable {g' : Kripke}

theorem symm (h : g.Reorders g') : g'.Reorders g :=
  ⟨h.nodes.symm, h.initial.symm, fun i => (h.edges i).symm⟩

/-- The same path, in the other graph. -/
def path (h : g.Reorders g') (p : g.Path) : g'.Path where
  node := p.node
  edge := p.edge
  leaves k := (h.edges _).mem_iff.mpr (p.leaves k)
  arrives := p.arrives

theorem over_iff (h : g.Reorders g') (q : Quantifier) (i : NodeId) (P : (Nat → NodeId) → Prop) :
    q.over g i (fun p => P p.node) ↔ q.over g' i (fun p => P p.node) := by
  cases q with
  | all => exact ⟨fun hall p => hall (h.symm.path p), fun hall p => hall (h.path p)⟩
  | some =>
    constructor
    · rintro ⟨p, hp⟩
      exact ⟨h.path p, hp⟩
    · rintro ⟨p, hp⟩
      exact ⟨h.symm.path p, hp⟩

theorem holds_eq (h : g.Reorders g') (f : Formula) : f.Holds g = f.Holds g' := by
  funext i
  induction f generalizing i with
  | atom a => rw [Holds, Holds, node?, node?, h.nodes]
  | not f ih | within f w ih => rw [Holds, Holds, ih]
  | and l r ihl ihr | or l r ihl ihr | implies l r ihl ihr => rw [Holds, Holds, ihl, ihr]
  | always q f ih =>
    simp only [Holds, ih]
    exact propext (h.over_iff q i fun n => ∀ k, f.Holds g' (n k))
  | eventually q f ih =>
    simp only [Holds, ih]
    exact propext (h.over_iff q i fun n => ∃ k, f.Holds g' (n k))
  | next q f ih =>
    simp only [Holds, ih]
    exact propext (h.over_iff q i fun n => f.Holds g' (n 1))
  | strongUntil q l r ihl ihr =>
    simp only [Holds, ihl, ihr]
    exact propext (h.over_iff q i fun n =>
      ∃ k, r.Holds g' (n k) ∧ ∀ j < k, l.Holds g' (n j))
  | weakUntil q l r ihl ihr =>
    simp only [Holds, ihl, ihr]
    exact propext (h.over_iff q i fun n =>
      (∃ k, r.Holds g' (n k) ∧ ∀ j < k, l.Holds g' (n j)) ∨ ∀ k, l.Holds g' (n k))

theorem isDefinedOn (h : g.Reorders g') (hf : f.IsDefinedOn g) : f.IsDefinedOn g' := by
  intro a ha i node hn
  rw [node?, h.nodes] at hn
  exact hf a ha i node hn

end Kripke.Reorders

namespace Checker

/-- Without windows the order in which edges were added does not matter to a check. -/
theorem check_of_reorders (c c' : Checker) (spec : Specification) (hg : c.graph.Reorders c'.graph)
    (hl : c.settings.popLimit = none) (hl' : c'.settings.popLimit = none)
    (ho : c.store.config.order = .depthFirst) (ho' : c'.store.config.order = .depthFirst)
    (hv : spec.validate = .ok ()) (hw : ∀ f ∈ spec, f.isWindowFree = true)
    (hd : ∀ f ∈ spec, f.IsDefinedOn c.graph) :
    ((c.check spec).1.result = .ok () ∧ (c'.check spec).1.result = .ok ()) ∨
    ∃ k f x x', (c.check spec).1.result = .error (.error (.unsatisfied k f x)) ∧
      (c'.check spec).1.result = .error (.error (.unsatisfied k f x')) := by
  have hd' (f : Formula) (hf : f ∈ spec) : f.IsDefinedOn c'.graph := hg.isDefinedOn (hd f hf)
  have hjudged := judged_of_depthFirst hl' ho' hv hw hd'
  simp only [Specification.Judged, hg.initial, ← hg.holds_eq] at hjudged
  exact (judged_of_depthFirst hl ho hv hw hd).agree hjudged

end Checker

/-- Two ways into a cycle, by the second node and by the third, in the order in which they are given.
Every edge takes one unit of time. -/
def Kripke.merging (swap : Bool) : Kripke where
  nodes := .replicate 4 ⟨⟨∅, false, "", ""⟩, .read⟩
  edges := #[if swap then [⟨⟨2⟩, ⟨1, 0⟩⟩, ⟨⟨1⟩, ⟨1, 0⟩⟩] else [⟨⟨1⟩, ⟨1, 0⟩⟩, ⟨⟨2⟩, ⟨1, 0⟩⟩],
    [⟨⟨3⟩, ⟨1, 0⟩⟩], [⟨⟨3⟩, ⟨1, 0⟩⟩], [⟨⟨1⟩, ⟨1, 0⟩⟩]]
  initial := (∅ : SortedSet NodeId).insert ⟨0⟩
  size_edges := rfl
  total := by cases swap <;> simp
  inside := by cases swap <;> simp
  initial_nonempty := toList_insert_first
  initial_inside := by decide

theorem Kripke.reorders_merging : (merging false).Reorders (merging true) where
  nodes := rfl
  initial := rfl
  edges i := by
    obtain ⟨_ | n⟩ := i
    · exact .swap _ _ _
    · rfl

namespace Checker

theorem check_of_reorders_merging :
    ((small (.merging true) .depthFirst).check
      [.always .all (.not .falsum), .eventually .all .falsum]).1.result ≠ .ok () := by
  have h := check_of_reorders (small (.merging false) .depthFirst)
    (small (.merging true) .depthFirst) [.always .all (.not .falsum), .eventually .all .falsum]
    Kripke.reorders_merging rfl rfl rfl rfl (by decide) (by decide) fun f hf a ha i node _ => by
      obtain rfl : a = .const false := by
        rcases List.mem_pair.mp hf with rfl | rfl <;> simpa [atoms, falsum] using ha
      exact ⟨false, rfl⟩
  rcases h with ⟨hok, -⟩ | ⟨k, f, x, x', -, herr⟩
  · revert hok
    decide +kernel
  · rw [herr]
    simp

/-- Within a window the order of edges matters. The node where the ways meet is visited at the same
cost by both, once after the second node, which then closes a cycle, and is not visited again after
the third. -/
theorem check_merging_ne :
    let f := Formula.within (.always .all (.not .falsum))
      (.ofList [⟨.time, .le, ⟨2, ⟨.time, .pico⟩⟩⟩])
    f.validate = .ok () ∧ ((small (.merging true) .depthFirst).check [f]).1.result = .ok () ∧
      ((small (.merging false) .depthFirst).check [f]).1.result ≠ .ok () :=
  ⟨by decide, by decide +kernel, by decide +kernel⟩

end Checker

end CostCTL
