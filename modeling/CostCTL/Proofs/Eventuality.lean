import CostCTL.Proofs.Ruling

/-!
# Eventualities within a window

A path formula with a window is about nodes and costs: it has to be ended at a position inside the
window, and kept at all positions inside it before (`Formula.Bounded`). For a window without `!=`
the depth-first search is exact.

If the search fails, the formula does not hold where it fails, and so it does not hold at the start
(`Search.Owed`). A cycle that is closed inside the window can be followed for ever, because from then
on all positions are inside the window or after it.

If the search does not fail, the formula holds wherever it was visited, except on the branch that the
next job stands on (`Frames`). No job comes back to its own branch, since it would close a cycle.

The requirement has to pass validation, which looks also at the parts that a search never looks at
(`Checker.check_within_eventuality_malformed`).
-/

namespace CostCTL

variable {g : Kripke} {s t : Search} {f : Formula} {w : Window}

/-! ### Nodes with costs -/

/-- What counts of a cost. -/
def Window.relevant (w : Window) (c : Cost) : Cost := if w.isEmpty then .zero else c

namespace Window

variable {c d : Cost}

theorem verdict_relevant (w : Window) (c : Cost) : w.verdict (w.relevant c) = w.verdict c := by
  unfold relevant
  split
  · next h => rw [verdict_of_isEmpty h, verdict_of_isEmpty h]
  · rfl

theorem isAhead_relevant (w : Window) (c : Cost) : w.isAhead (w.relevant c) = w.isAhead c := by
  rw [isAhead, verdict_relevant, isAhead]

theorem relevant_relevant_add (w : Window) (c d : Cost) :
    w.relevant (w.relevant c + d) = w.relevant (c + d) := by
  unfold relevant
  split <;> rfl

theorem relevant_zero (w : Window) : w.relevant .zero = .zero := by
  unfold relevant
  split <;> rfl

end Window

/-- An edge leads from node to node, and adds to the cost. -/
def Kripke.CostStep (g : Kripke) (w : Window) (a b : NodeId × Cost) : Prop :=
  ∃ e ∈ g.successors a.1, b = (e.target, w.relevant (a.2 + e.cost))

namespace Formula

variable {a b : NodeId × Cost}

/-- The formula is ended here, inside the window. -/
def EndsIn (g : Kripke) (w : Window) (f : Formula) (a : NodeId × Cost) : Prop :=
  w.verdict a.2 = .satisfied ∧ f.ends.Holds g a.1

/-- If this is inside the window, the formula is kept here. -/
def KeepsIn (g : Kripke) (w : Window) (f : Formula) (a : NodeId × Cost) : Prop :=
  w.verdict a.2 = .satisfied → f.keeps.Holds g a.1

/-- On every path the formula comes to an end inside the window, and is kept until then. -/
def Bounded (g : Kripke) (w : Window) (f : Formula) (a : NodeId × Cost) : Prop :=
  AllUntil (g.CostStep w) (f.KeepsIn g w) (f.EndsIn g w) False a

end Formula

open Formula

namespace Kripke

theorem exists_costStep {a : NodeId × Cost} (h : a.1.index < g.size) :
    ∃ b, g.CostStep w a b ∧ b.1.index < g.size := by
  obtain ⟨e, he⟩ := List.exists_mem_of_ne_nil _ (successors_ne_nil h)
  exact ⟨_, ⟨e, he, rfl⟩, target_inside he⟩

theorem CostStep.le {a b : NodeId × Cost} (hw : w.isEmpty = false) (h : g.CostStep w a b) :
    a.2 ≤ b.2 := by
  obtain ⟨e, -, rfl⟩ := h
  simp only [Window.relevant, hw]
  exact Cost.le_add a.2 e.cost

theorem isRun_costStep (p : g.Path) :
    IsRun (g.CostStep w) (p.node 0, .zero) fun k => (p.node k, w.relevant (p.cost k)) := by
  refine ⟨by simp only [Path.cost, w.relevant_zero], fun k => ⟨p.edge k, p.leaves k, ?_⟩⟩
  simp only [Path.cost, p.arrives, w.relevant_relevant_add]

theorem exists_path_of_isRun_costStep {i : NodeId} {x : Nat → NodeId × Cost}
    (h : IsRun (g.CostStep w) (i, .zero) x) :
    ∃ p : g.Path, ∀ k, x k = (p.node k, w.relevant (p.cost k)) := by
  choose edge hleaves harrives using h.step
  let p : g.Path := ⟨fun k => (x k).1, edge, hleaves, fun k => by rw [harrives]⟩
  refine ⟨p, fun k => Prod.ext rfl ?_⟩
  induction k with
  | zero => rw [h.start, Path.cost, w.relevant_zero]
  | succ k ih => rw [harrives, ih, Path.cost, w.relevant_relevant_add]

/-- What is not before the window does not come before it. -/
theorem CostStep.isAhead {a b : NodeId × Cost} (h : g.CostStep w a b) (hw : w.isConvex = true)
    (ha : w.isAhead a.2 = false) : w.isAhead b.2 = false := by
  cases he : w.isEmpty with
  | true => rw [Window.isAhead, Window.verdict_of_isEmpty he]
  | false => exact Window.isAhead_mono hw ha (h.le he)

end Kripke

/-- The same of paths with their costs. -/
theorem Formula.bounded_iff {i : NodeId} : f.Bounded g w (i, .zero) ↔
    ∀ p : g.Path, p.node 0 = i → ∃ j, (∀ x ∈ w.toList, x.verdict (p.cost j) = .satisfied) ∧
      f.ends.Holds g (p.node j) ∧
      ∀ k < j, (∀ x ∈ w.toList, x.verdict (p.cost k) = .satisfied) → f.keeps.Holds g (p.node k) := by
  simp only [← Window.verdict_eq_satisfied_iff, ← and_assoc]
  constructor
  · rintro h p rfl
    obtain ⟨j, he, hk⟩ := (h _ (Kripke.isRun_costStep p)).resolve_right (fun h => h.1)
    simp only [EndsIn, KeepsIn, Window.verdict_relevant] at he hk
    exact ⟨j, he, hk⟩
  · intro h x hx
    obtain ⟨p, hp⟩ := Kripke.exists_path_of_isRun_costStep hx
    have hstart : p.node 0 = i := congrArg Prod.fst ((hp 0).symm.trans hx.start)
    obtain ⟨j, he, hk⟩ := h p hstart
    refine .inl ⟨j, ?_, fun k hj => ?_⟩
    · rw [hp, EndsIn, Window.verdict_relevant]
      exact he
    · rw [hp, KeepsIn, Window.verdict_relevant]
      exact hk k hj

/-! ### Where the formula fails -/

namespace Formula

variable {a b : NodeId × Cost}

theorem Bounded.step (h : f.Bounded g w a) (ha : a.1.index < g.size) :
    f.EndsIn g w a ∨ (f.KeepsIn g w a ∧ ∀ b, g.CostStep w a b → f.Bounded g w b) :=
  AllUntil.step h (exists_isRun (P := fun a => a.1.index < g.size)
    (fun _ ha => Kripke.exists_costStep ha) ha)

/-- A step that leads on from where the formula is not ended. -/
def OnwardIn (g : Kripke) (w : Window) (f : Formula) (a b : NodeId × Cost) : Prop :=
  g.CostStep w a b ∧ ¬ f.EndsIn g w a

/-- Where one can go on for ever without an end, the formula does not hold. -/
theorem not_bounded_of_onward {P : NodeId × Cost → Prop}
    (h : ∀ a, P a → ∃ b, f.OnwardIn g w a b ∧ P b) (ha : P a) : ¬ f.Bounded g w a := by
  intro hb
  obtain ⟨x, hx⟩ := exists_isRun h ha
  rcases hb x ⟨hx.start, fun k => (hx.step k).1⟩ with ⟨k, hk, -⟩ | ⟨hfalse, -⟩
  · exact (hx.step k).2 hk
  · exact hfalse

/-- After the window there is no end. -/
theorem not_bounded_of_violated {x : Statement} (ha : a.1.index < g.size)
    (h : w.verdict a.2 = .violated x) : ¬ f.Bounded g w a := by
  refine not_bounded_of_onward (P := fun a => a.1.index < g.size ∧ ∃ x, w.verdict a.2 = .violated x)
    ?_ ⟨ha, x, h⟩
  rintro a ⟨hn, x, hx⟩
  obtain ⟨b, hb, hbn⟩ := Kripke.exists_costStep (w := w) hn
  have hw : w.isEmpty = false := by
    cases hw : w.isEmpty with
    | false => rfl
    | true =>
      rw [Window.verdict_of_isEmpty hw] at hx
      cases hx
  refine ⟨b, ⟨hb, fun he => ?_⟩, hbn, Window.violated_mono hx (hb.le hw)⟩
  rw [he.1] at hx
  cases hx

theorem le_of_onward (hw : w.isEmpty = false)
    (h : Relation.ReflTransGen (f.OnwardIn g w) a b) : a.2 ≤ b.2 := by
  induction h with
  | refl => exact Cost.le_refl _
  | tail _ hstep ih => exact Cost.le_trans ih (hstep.1.le hw)

/-- What lies between two positions that are not outside the window is inside. -/
theorem satisfied_of_onward (hw : w.isConvex = true) (h : Relation.ReflTransGen (f.OnwardIn g w) a b)
    (ha : w.isAhead a.2 = false) (hb : w.verdict b.2 = .satisfied) : w.verdict a.2 = .satisfied := by
  cases he : w.isEmpty with
  | true => exact Window.verdict_of_isEmpty he
  | false => exact Window.satisfied_between hw ha (Cost.le_refl _) (le_of_onward he h) hb

/-- So there is no node on the way where the formula is ended. -/
theorem onward_of_onwardIn (hw : w.isConvex = true) (h : Relation.TransGen (f.OnwardIn g w) a b)
    (ha : w.isAhead a.2 = false) (hb : w.verdict b.2 = .satisfied) :
    Relation.TransGen (f.Onward g) a.1 b.1 := by
  have honward {a a' : NodeId × Cost} (h : f.OnwardIn g w a a')
      (h' : Relation.ReflTransGen (f.OnwardIn g w) a' b) (ha : w.isAhead a.2 = false) :
      f.Onward g a.1 a'.1 := by
    have hsat := satisfied_of_onward hw (.head h h') ha hb
    obtain ⟨⟨e, he, rfl⟩, hends⟩ := h
    exact ⟨⟨e, he, rfl⟩, fun hend => hends ⟨hsat, hend⟩⟩
  induction h using Relation.TransGen.head_induction_on with
  | single h => exact .single (honward h .refl ha)
  | head h rest ih => exact .head (honward h rest.to_reflTransGen ha) (ih (h.1.isAhead hw ha))

/-- A cycle that is closed inside the window, or after it, can be followed for ever. -/
theorem not_bounded_of_cycle {n : NodeId} {c d : Cost} (hw : w.isConvex = true)
    (hn : n.index < g.size) (h : Relation.TransGen (f.OnwardIn g w) (n, c) (n, d))
    (hc : w.isAhead c = false) (hd : w.isAhead d = false) : ¬ f.Bounded g w (n, d) := by
  rcases Window.verdict_of_not_isAhead hd with hsat | ⟨x, hx⟩
  · have hcycle : Relation.TransGen (f.Onward g) n n := onward_of_onwardIn hw h hc hsat
    refine not_bounded_of_onward
      (P := fun a => w.isAhead a.2 = false ∧ Relation.TransGen (f.Onward g) a.1 n) ?_ ⟨hd, hcycle⟩
    rintro ⟨m, k⟩ ⟨hk, hm⟩
    obtain ⟨o, ⟨⟨e, he, rfl⟩, hends⟩, ho⟩ := Relation.TransGen.head'_iff.mp hm
    have hstep : g.CostStep w (m, k) (e.target, w.relevant (k + e.cost)) := ⟨e, he, rfl⟩
    refine ⟨_, ⟨hstep, fun h => hends h.2⟩, hstep.isAhead hw hk, ?_⟩
    rcases Relation.reflTransGen_iff_eq_or_transGen.mp ho with heq | ho
    · rw [← heq]
      exact hcycle
    · exact ho
  · exact not_bounded_of_violated hn hx

end Formula

/-- Where the context stands, as far as it counts. -/
def Context.place (c : Context) : NodeId × Cost := (c.node, c.relevantCost)

/-- The steps from where a context stands lead to where its successors stand. -/
theorem Context.costStep_iff {c : Context} (history : History) {b : NodeId × Cost} :
    g.CostStep c.window c.place b ↔ ∃ e ∈ g.successors c.node, b = (c.follow history e).place := by
  have hplace (e : Edge) : (c.follow history e).place =
      (e.target, c.window.relevant (c.place.2 + e.cost)) :=
    congrArg (Prod.mk e.target) (c.window.relevant_relevant_add _ _).symm
  simp only [hplace]
  rfl

/-- A root that is constrained to a window stays where it is. -/
theorem Context.place_start (i : NodeId) (w : Window) :
    Context.place { Context.start i with window := w } = (i, .zero) :=
  congrArg (Prod.mk i) w.relevant_zero

namespace Formula.Ruled

variable {c : Context}

theorem onward (h : f.Ruled g c .on) :
    c.inCycle = false ∧ f.KeepsIn g c.window c.place ∧ ¬ f.EndsIn g c.window c.place := by
  have hverdict : c.window.verdict c.place.2 = c.window.verdict c.cost := c.window.verdict_relevant _
  rw [KeepsIn, EndsIn, hverdict]
  cases h with
  | early hc hw =>
    obtain ⟨x, hx⟩ := Window.isAhead_eq_true_iff.mp hw
    simp [hc, hx]
  | kept hc hw he hk => exact ⟨hc, fun _ => hk, fun h => he h.2⟩

theorem endsIn (h : f.Ruled g c .met) (hf : f.isEventuality = true) :
    c.inCycle = false ∧ f.EndsIn g c.window c.place := by
  cases h with
  | passed _ he =>
    rw [hf] at he
    cases he
  | ended hc hw he => exact ⟨hc, (c.window.verdict_relevant _).trans hw, he⟩

theorem not_bounded {v : Violation} (h : f.Ruled g c (.fail v)) (hw : c.window.isConvex = true)
    (hn : c.node.index < g.size) (hh : ∀ seen, c.history.get? c.node = some seen →
      Relation.TransGen (f.OnwardIn g c.window) (c.node, c.window.relevant seen) c.place) :
    ¬ f.Bounded g c.window c.place := by
  cases h with
  | missed hc hf =>
    unfold Context.inCycle closesCycle at hc
    split at hc
    · next seen hseen =>
      rw [Bool.or_eq_true, Bool.not_eq_true', Bool.or_eq_false_iff, beq_iff_eq] at hc
      rcases hc with rfl | ⟨hs, hcost⟩
      · exact AllUntil.not_of_cycle (hh _ hseen) id
      · refine not_bounded_of_cycle hw hn (hh _ hseen) ?_ ?_
        · rwa [Window.isAhead_relevant]
        · exact (c.window.isAhead_relevant _).trans hcost
    · cases hc
  | late _ hx => exact not_bounded_of_violated hn ((c.window.verdict_relevant _).trans hx)
  | broken _ hs he hk =>
    intro hb
    have hs : c.window.verdict c.place.2 = .satisfied := (c.window.verdict_relevant _).trans hs
    rcases hb.step hn with hend | ⟨hkeep, -⟩
    · exact he hend.2
    · exact hk (hkeep hs)

end Formula.Ruled

namespace Search

/-- If the formula holds at the start, it holds wherever it is still to be looked at. The nodes of a
history are on the way, and the formula is not ended there. -/
structure Owed (g : Kripke) (f : Formula) (w : Window) (s : Search) : Prop where
  history : ∀ j ∈ s.queue, ∀ n seen, j.history.get? n = some seen →
    Relation.TransGen (f.OnwardIn g w) (n, w.relevant seen) j.place
  holds : (∀ i ∈ g.initial, f.Bounded g w (i, .zero)) → ∀ j ∈ s.queue, f.Bounded g w j.place

/-- A job that takes the place of another: nothing is owed for its history. -/
theorem Owed.sweep (h : s.Owed g f w) (hs : ∀ j ∈ s.queue, j.node.index < g.size)
    (hst : Sweep g f w s t) : t.Owed g f w := by
  cases hst with
  | repeated hq hv | met hq hv =>
    exact ⟨fun j hj => h.history j (hq.rest_subset hj),
      fun hi j hj => h.holds hi j (hq.rest_subset hj)⟩
  | @constrain i rest hq hv =>
    refine ⟨fun j hj n seen hget => ?_, fun hi j hj => ?_⟩
    · rcases List.mem_append.mp hj with hj | hj
      · exact h.history j (hq.rest_subset hj) n seen hget
      · rw [List.mem_singleton.mp hj] at hget
        cases hget
    · rcases List.mem_append.mp hj with hj | hj
      · exact h.holds hi j (hq.rest_subset hj)
      · rw [List.mem_singleton.mp hj, Context.place_start]
        exact h.holds hi _ hq.mem
  | @on j rest hq hv hf hw hr =>
    obtain ⟨-, -, hends⟩ := hr.onward
    rw [hw] at hends
    have hstep {e : Edge} (he : e ∈ g.successors j.node) :
        g.CostStep w j.place (j.follow j.leave e).place :=
      hw ▸ (Context.costStep_iff j.leave).mpr ⟨e, he, rfl⟩
    refine ⟨fun k hk n seen hget => ?_, fun hi k hk => ?_⟩
    · rcases List.mem_append.mp hk with hk | hk
      · exact h.history k (hq.rest_subset hk) n seen hget
      · obtain ⟨e, he, rfl⟩ := List.mem_map.mp hk
        have hget : j.leave.get? n = some seen := hget
        rw [Context.get?_leave] at hget
        split at hget
        · next hn =>
          cases hget
          rw [beq_iff_eq.mp hn, ← hw]
          rw [← hw] at hstep hends
          exact .single ⟨hstep he, hends⟩
        · exact (h.history j hq.mem n seen hget).tail ⟨hstep he, hends⟩
    · rcases List.mem_append.mp hk with hk | hk
      · exact h.holds hi k (hq.rest_subset hk)
      · obtain ⟨e, he, rfl⟩ := List.mem_map.mp hk
        exact (((h.holds hi j hq.mem).step (hs j hq.mem)).resolve_left hends).2 _ (hstep he)

theorem Owed.seed (g : Kripke) (order : PendingOrder) (f : Formula) (w : Window) :
    ((Search.start order).seed g (.within f w)).Owed g f w where
  history j hj n seen hget := by
    obtain ⟨i, -, rfl⟩ := List.mem_map.mp hj
    cases hget
  holds hi j hj := by
    obtain ⟨i, hmem, rfl⟩ := List.mem_map.mp hj
    exact hi i hmem

end Search

/-! ### Frames of a depth-first search -/

section Frames

variable {ι : Type} {goal : Prop} {U : ι → Prop} {Under : ι → ι → Prop} {stack rest branch : List ι}
  {j : ι}

/-- The stack of a depth-first search. At the bottom there is what the goal needs. Above it stands,
for each item `j` on the branch that was taken from the stack, what it needs in turn, and which is
under the branch up to `j`. -/
inductive Frames (goal : Prop) (U : ι → Prop) (Under : ι → ι → Prop) : List ι → List ι → Prop where
  | base {items : List ι} (h : (∀ i ∈ items, U i) → goal) : Frames goal U Under items []
  | push {rest items branch : List ι} {j : ι} (before : Frames goal U Under (rest ++ [j]) branch)
      (hne : items ≠ []) (hunder : ∀ i ∈ items, ∀ b ∈ branch ++ [j], Under b i)
      (h : (∀ i ∈ items, U i) → U j) : Frames goal U Under (rest ++ items) (branch ++ [j])

namespace Frames

/-- The top item is the last that the last item of the branch needs. -/
theorem exists_of_push {rest' items : List ι} (hne : items ≠ [])
    (h : rest' ++ items = rest ++ [j]) : ∃ items', items = items' ++ [j] ∧ rest = rest' ++ items' := by
  obtain rfl | ⟨items', i, rfl⟩ := items.eq_nil_or_concat
  · exact absurd rfl hne
  · rw [List.concat_eq_append] at h ⊢
    rw [← List.append_assoc] at h
    obtain ⟨hrest, hi⟩ := List.append_inj' h rfl
    cases hi
    exact ⟨items', rfl, hrest.symm⟩

/-- The top item is under the branch. -/
theorem under (h : Frames goal U Under (rest ++ [j]) branch) : ∀ b ∈ branch, Under b j := by
  generalize hstack : rest ++ [j] = stack at h
  cases h with
  | base => exact fun b hb => absurd hb List.not_mem_nil
  | push before hne hunder h =>
    obtain ⟨items', rfl, -⟩ := exists_of_push hne hstack.symm
    exact hunder j (List.mem_append_right _ (List.mem_singleton_self _))

/-- If the top item holds, it can be dropped, and with it the part of the branch that needs nothing
more. -/
theorem drop (h : Frames goal U Under (rest ++ [j]) branch) (hj : U j) :
    ∃ branch', Frames goal U Under rest branch' ∧ ∀ b ∈ branch, U b ∨ b ∈ branch' := by
  generalize hstack : rest ++ [j] = stack at h
  induction h generalizing rest j with
  | base h =>
    subst hstack
    refine ⟨[], .base fun hall => h fun i hi => ?_, fun b hb => absurd hb List.not_mem_nil⟩
    rcases List.mem_append.mp hi with hi | hi
    · exact hall i hi
    · exact List.mem_singleton.mp hi ▸ hj
  | @push rest' items branch k before hne hunder h ih =>
    obtain ⟨items', rfl, rfl⟩ := exists_of_push hne hstack.symm
    have hk (hall : ∀ i ∈ items', U i) : U k := h fun i hi => by
      rcases List.mem_append.mp hi with hi | hi
      · exact hall i hi
      · exact List.mem_singleton.mp hi ▸ hj
    by_cases hnil : items' = []
    · -- nothing more is needed for `k`, which is dropped in turn
      subst hnil
      have hk : U k := hk fun i hi => absurd hi List.not_mem_nil
      obtain ⟨branch', hbefore, hbranch⟩ := ih hk rfl
      rw [List.append_nil]
      refine ⟨branch', hbefore, fun b hb => ?_⟩
      rcases List.mem_append.mp hb with hb | hb
      · exact hbranch b hb
      · exact .inl (List.mem_singleton.mp hb ▸ hk)
    · exact ⟨branch ++ [k], .push before hnil (fun i hi => hunder i (List.mem_append_left _ hi)) hk,
        fun b hb => .inr hb⟩

theorem goal_of_nil (h : Frames goal U Under [] branch) : goal := by
  generalize hstack : [] = stack at h
  cases h with
  | base h =>
    subst hstack
    exact h fun i hi => absurd hi List.not_mem_nil
  | push before hne =>
    exact absurd (List.append_eq_nil_iff.mp hstack.symm).2 hne

end Frames

end Frames

/-! ### Where the formula holds -/

/-- The job came through `b`: a root, or a place of the formula that is in its history. -/
def Job.Under (f : Formula) (b j : Job) : Prop :=
  j.formula = f ∧ (b.formula = f → j.Passed b.node b.relevantCost)

/-- A job that comes to a place on its own branch has closed a cycle. -/
theorem Job.Under.inCycle {b j : Job} (h : b.Under f j) (hk : b.visitKey = j.visitKey) :
    j.inCycle = true := by
  obtain ⟨hnode, hform, -, -, hcost, -⟩ := VisitKey.mk.inj hk
  have := h.2 (hform.trans h.1)
  rw [hnode, hcost] at this
  exact this.inCycle

namespace Search

/-- The formula holds wherever it was visited, except on the branch that is still open. -/
structure Branching (g : Kripke) (f : Formula) (w : Window) (s : Search) (branch : List Job) :
    Prop where
  order : s.order = .depthFirst
  frames : Frames (∀ i ∈ g.initial, f.Bounded g w (i, .zero)) (fun j => f.Bounded g w j.place)
    (Job.Under f) s.queue branch
  visited : ∀ k ∈ s.visited, k.inCycle = false ∧
    (f.Bounded g w (k.node, k.cost) ∨ ∃ b ∈ branch, b.visitKey = k)

/-- A job that holds can be dropped, and its key kept. -/
theorem Branching.drop {branch : List Job} (h : s.Branching g f w branch) {j : Job}
    {rest : List Job} (hq : s.Takes j rest) (hj : f.Bounded g w j.place) (keys : List VisitKey)
    (hkeys : ∀ k ∈ keys, k = j.visitKey ∧ j.inCycle = false) :
    ∃ branch', Branching g f w { s with queue := rest, visited := s.visited ++ keys } branch' := by
  have hframes := h.frames
  rw [hq.of_depthFirst h.order] at hframes
  obtain ⟨branch', hrest, hbranch⟩ := hframes.drop hj
  refine ⟨branch', h.order, hrest, fun k hk => ?_⟩
  rcases List.mem_append.mp hk with hk | hk
  · obtain ⟨hc, hb | ⟨b, hb, rfl⟩⟩ := h.visited k hk
    · exact ⟨hc, .inl hb⟩
    · exact ⟨hc, (hbranch b hb).imp_right fun hb => ⟨b, hb, rfl⟩⟩
  · obtain ⟨rfl, hc⟩ := hkeys k hk
    exact ⟨hc, .inl hj⟩

/-- A job that needs others is put on the branch. -/
theorem Branching.push {branch : List Job} (h : s.Branching g f w branch) {j : Job}
    {rest jobs : List Job} (hq : s.Takes j rest) (hc : j.inCycle = false) (hne : jobs ≠ [])
    (hunder : ∀ i ∈ jobs, j.Under f i ∧ ∀ b : Job, b.Under f j → b.Under f i)
    (hj : (∀ i ∈ jobs, f.Bounded g w i.place) → f.Bounded g w j.place) :
    Branching g f w { s with queue := rest ++ jobs, visited := s.visited ++ [j.visitKey] }
      (branch ++ [j]) := by
  have hframes := h.frames
  rw [hq.of_depthFirst h.order] at hframes
  refine ⟨h.order, .push hframes hne (fun i hi b hb => ?_) hj, fun k hk => ?_⟩
  · rcases List.mem_append.mp hb with hb | hb
    · exact (hunder i hi).2 b (hframes.under b hb)
    · exact List.mem_singleton.mp hb ▸ (hunder i hi).1
  · rcases List.mem_append.mp hk with hk | hk
    · obtain ⟨hin, hb | ⟨b, hb, rfl⟩⟩ := h.visited k hk
      · exact ⟨hin, .inl hb⟩
      · exact ⟨hin, .inr ⟨b, List.mem_append_left _ hb, rfl⟩⟩
    · obtain rfl := List.mem_singleton.mp hk
      exact ⟨hc, .inr ⟨j, List.mem_append_right _ (List.mem_singleton_self _), rfl⟩⟩

theorem Branching.sweep {branch : List Job} (h : s.Branching g f w branch)
    (hf : f.isEventuality = true) (hs : ∀ j ∈ s.queue, j.node.index < g.size)
    (hst : Sweep g f w s t) : ∃ branch', t.Branching g f w branch' := by
  cases hst with
  | @repeated j rest hq hv =>
    obtain ⟨hc, hb | ⟨b, hb, hkey⟩⟩ := h.visited _ hv
    · have := h.drop hq hb [] (fun k hk => absurd hk List.not_mem_nil)
      rwa [List.append_nil] at this
    · have hframes := h.frames
      rw [hq.of_depthFirst h.order] at hframes
      exact absurd ((hframes.under b hb).inCycle hkey) (by simpa [Job.visitKey] using hc)
  | @constrain i rest hq hv =>
    refine ⟨_, h.push hq rfl (by simp) (fun k hk => ?_) fun hall => ?_⟩
    · obtain rfl := List.mem_singleton.mp hk
      have hroot : (Job.root i (.within f w)).formula ≠ f := fun h => by
        have := congrArg Formula.isEventuality h
        rw [hf] at this
        cases this
      exact ⟨⟨rfl, fun h => absurd h hroot⟩, fun b hb => absurd hb.1 hroot⟩
    · have := hall _ (List.mem_singleton_self _)
      rwa [Context.place_start] at this
  | @on j rest hq hv hform hw hr =>
    obtain ⟨hc, hkeeps, -⟩ := hr.onward
    refine ⟨_, h.push hq hc ?_ (fun k hk => ?_) fun hall => ?_⟩
    · exact List.map_eq_nil_iff.not.mpr (Kripke.successors_ne_nil (hs j hq.mem))
    · obtain ⟨e, he, rfl⟩ := List.mem_map.mp hk
      exact ⟨⟨rfl, fun _ => j.passed_follow e⟩, fun b hb => ⟨rfl, fun hbf => (hb.2 hbf).follow e⟩⟩
    · refine .of_step (.inr ⟨hw ▸ hkeeps, fun b hb => ?_⟩)
      obtain ⟨e, he, rfl⟩ := (Context.costStep_iff j.leave).mp (hw ▸ hb)
      exact hall _ (List.mem_map_of_mem he)
  | met hq hv hform hw hr =>
    obtain ⟨hc, hends⟩ := hr.endsIn hf
    refine h.drop hq (.of_step (.inl (hw ▸ hends))) _ fun k hk => ⟨List.mem_singleton.mp hk, hc⟩

theorem Branching.seed (g : Kripke) (f : Formula) (w : Window) :
    ((Search.start .depthFirst).seed g (.within f w)).Branching g f w [] where
  order := rfl
  frames := .base fun hall i hi => hall _ (List.mem_map_of_mem hi)
  visited k hk := by cases hk

end Search

namespace Checker

variable {c : Checker}

theorem check_within_of_isEventuality (hl : c.settings.popLimit = none)
    (ho : c.store.config.order = .depthFirst) (hf : f.isSimple = true)
    (he : f.isEventuality = true) (hd : f.Evaluates c.graph)
    (hv : (within f w).validate = .ok ()) (hw : w.isConvex = true) :
    (c.check [within f w]).1.result = .ok () ↔
      ∀ i ∈ c.graph.initial, f.Bounded c.graph w (i, .zero) := by
  obtain ⟨past, z, hz, hze, hok⟩ := check_iff_idle hl hv hd
  obtain ⟨u, hu, -⟩ := validateUnder_within hv
  obtain rfl := Window.eq_of_merge_empty hu
  have huniv : (within f u).universal = within f u := by rw [universal, universal_of_isSimple hf]
  have hsweep := hz.sweep (f := f) (P := fun s => s.Owed c.graph f u ∧
      ∃ branch, s.Branching c.graph f u branch) hze hf hd hu (.inr huniv)
    (by rw [huniv, ho]; exact ⟨.seed .., [], .seed ..⟩)
    fun s t hs hP hst => ⟨hP.1.sweep (fun _ => hs.inside) hst,
      hP.2.elim fun _ hb => hb.sweep he (fun _ => hs.inside) hst⟩
  rw [hok]
  cases hsweep with
  | idle hidle hs =>
    obtain ⟨branch, hb⟩ := hs.2.2
    have hframes := hb.frames
    rw [hidle.2.2] at hframes
    exact iff_of_true hidle hframes.goal_of_nil
  | @halt s j v hs hj hform hjw hr hhalts =>
    have hnot : ¬ f.Bounded c.graph j.window j.place :=
      hr.not_bounded (hjw ▸ hw) (hs.1.inside hj) (hjw ▸ hs.2.1.history j hj _)
    exact iff_of_false (fun hidle => hidle.not_refuted hhalts)
      fun hall => absurd (hs.2.1.holds hall j hj) (hjw ▸ hnot)

/-- Depth first, eventualities within a window are exact. The until is accepted if on every path from
an initial node there is a position inside the window where `q` holds, and `p` holds at all positions
inside the window before. -/
theorem check_within_eventuality (c : Checker) (p q : Formula) (w : Window)
    (hl : c.settings.popLimit = none) (ho : c.store.config.order = .depthFirst)
    (hp : p.isState = true) (hq : q.isState = true) (hdp : p.IsValuedOn c.graph)
    (hdq : q.IsValuedOn c.graph) (hw : w.isConvex = true) :
    ((within (strongUntil .all p q) w).validate = .ok () →
      ((c.check [within (strongUntil .all p q) w]).1.result = .ok () ↔
        ∀ i ∈ c.graph.initial, ∀ path : c.graph.Path, path.node 0 = i →
          ∃ j, (∀ x ∈ w.toList, x.verdict (path.cost j) = .satisfied) ∧
            q.Holds c.graph (path.node j) ∧
            ∀ k < j, (∀ x ∈ w.toList, x.verdict (path.cost k) = .satisfied) →
              p.Holds c.graph (path.node k))) ∧
    ((within (eventually .all q) w).validate = .ok () →
      ((c.check [within (eventually .all q) w]).1.result = .ok () ↔
        ∀ i ∈ c.graph.initial, ∀ path : c.graph.Path, path.node 0 = i →
          ∃ j, (∀ x ∈ w.toList, x.verdict (path.cost j) = .satisfied) ∧
            q.Holds c.graph (path.node j))) := by
  refine ⟨fun hv => ?_, fun hv => ?_⟩
  · have hf : (strongUntil .all p q).isSimple = true := Bool.and_eq_true_iff.mpr ⟨hp, hq⟩
    have hd : (strongUntil .all p q).Evaluates c.graph := ⟨hdp.evaluates hp, hdq.evaluates hq⟩
    rw [check_within_of_isEventuality hl ho hf rfl hd hv hw]
    simp only [bounded_iff]
    rfl
  · have hf : (eventually .all q).isSimple = true := hq
    have hd : (eventually .all q).Evaluates c.graph := hdq.evaluates hq
    rw [check_within_of_isEventuality hl ho hf rfl hd hv hw]
    simp only [bounded_iff, ends, keeps, Holds, not_holds_falsum, not_false_eq_true, implies_true,
      and_true]

end Checker

namespace Kripke.Path

variable {there back : Cost} {path : (swing there back).Path} {k : Nat}

theorem swing_there (h : path.node k = ⟨0⟩) :
    path.node (k + 1) = ⟨1⟩ ∧ path.cost (k + 1) = path.cost k + there := by
  have he := path.leaves k
  rw [h] at he
  rw [path.arrives, cost, List.mem_singleton.mp he]
  exact ⟨rfl, rfl⟩

theorem swing_back (h : path.node k = ⟨1⟩) :
    path.node (k + 1) = ⟨0⟩ ∧ path.cost (k + 1) = path.cost k + back := by
  have he := path.leaves k
  rw [h] at he
  rw [path.arrives, cost, List.mem_singleton.mp he]
  exact ⟨rfl, rfl⟩

end Kripke.Path

namespace Checker

/-- The second node is met at a cost of two, when the window is not open yet, and again at a cost of
five. If the window is closed by then, it is not met in time. -/
theorem check_within_eventuality_swing :
    let c := small (.swing ⟨2, 0⟩ ⟨1, 0⟩) .depthFirst
    let p := Formula.atom (.inState "left")
    let q := Formula.atom (.inState "right")
    let w := Window.ofList [⟨.time, .ge, ⟨3, ⟨.time, .pico⟩⟩⟩, ⟨.time, .le, ⟨5, ⟨.time, .pico⟩⟩⟩]
    let v := Window.ofList [⟨.time, .ge, ⟨3, ⟨.time, .pico⟩⟩⟩, ⟨.time, .le, ⟨4, ⟨.time, .pico⟩⟩⟩]
    (c.check [within (strongUntil .all p q) w]).1.result = .ok () ∧
    (c.check [within (eventually .all q) w]).1.result = .ok () ∧
    ¬ ∀ i ∈ c.graph.initial, ∀ path : c.graph.Path, path.node 0 = i →
      ∃ j, (∀ x ∈ v.toList, x.verdict (path.cost j) = .satisfied) ∧
        q.Holds c.graph (path.node j) := by
  intro c p q w v
  obtain ⟨huntil, heventually⟩ := check_within_eventuality c p q w rfl rfl rfl rfl
    (fun _ _ _ => ⟨_, rfl⟩) (fun _ _ _ => ⟨_, rfl⟩) (by decide)
  obtain ⟨-, hclosed⟩ := check_within_eventuality c p q v rfl rfl rfl rfl
    (fun _ _ _ => ⟨_, rfl⟩) (fun _ _ _ => ⟨_, rfl⟩) (by decide)
  have hcosts (path : c.graph.Path) (h₀ : path.node 0 = ⟨0⟩) :
      (path.cost 1 = ⟨2, 0⟩ ∧ path.cost 2 = ⟨3, 0⟩ ∧ path.cost 3 = ⟨5, 0⟩) ∧
      path.node 2 = ⟨0⟩ ∧ path.node 3 = ⟨1⟩ := by
    obtain ⟨h₁, hc₁⟩ := Kripke.Path.swing_there h₀
    obtain ⟨h₂, hc₂⟩ := Kripke.Path.swing_back h₁
    obtain ⟨h₃, hc₃⟩ := Kripke.Path.swing_there h₂
    rw [hc₁] at hc₂
    rw [hc₂] at hc₃
    exact ⟨⟨hc₁, hc₂, hc₃⟩, h₂, h₃⟩
  refine ⟨(huntil (by decide)).mpr fun i hi path h₀ => ?_,
    (heventually (by decide)).mpr fun i hi path h₀ => ?_,
    fun h => absurd ((hclosed (by decide)).mpr h) (by decide +kernel)⟩
  · obtain ⟨⟨hc₁, hc₂, hc₃⟩, h₂, h₃⟩ := hcosts path (h₀.trans (List.mem_singleton.mp hi))
    refine ⟨3, by rw [hc₃]; decide, by rw [h₃]; exact ⟨_, rfl, by decide⟩, fun k hk hsat => ?_⟩
    match k with
    | 0 => exact absurd hsat (by rw [show path.cost 0 = .zero from rfl]; decide)
    | 1 => exact absurd hsat (by rw [hc₁]; decide)
    | 2 =>
      rw [h₂]
      exact ⟨_, rfl, by decide⟩
  · obtain ⟨⟨-, -, hc₃⟩, -, h₃⟩ := hcosts path (h₀.trans (List.mem_singleton.mp hi))
    exact ⟨3, by rw [hc₃]; decide, by rw [h₃]; exact ⟨_, rfl, by decide⟩⟩

/-- A part of `q` that is not looked at may be malformed. Then the requirement is refused, though the
window is in order and on every path `q` holds inside it at once. -/
theorem check_within_eventuality_malformed :
    let c := small .loop .depthFirst
    let q := Formula.or (.not .falsum) (.atom (.compare ⟨.var "x", .lt, .lit (.str "s")⟩))
    let w := Window.ofList [⟨.time, .le, ⟨5, ⟨.time, .pico⟩⟩⟩]
    w.validate = .ok () ∧ w.reconcile = .ok () ∧ w.isConvex = true ∧
    q.isState = true ∧ q.IsValuedOn c.graph ∧
    (∀ i ∈ c.graph.initial, ∀ path : c.graph.Path, path.node 0 = i →
      ∃ j, (∀ x ∈ w.toList, x.verdict (path.cost j) = .satisfied) ∧
        q.Holds c.graph (path.node j)) ∧
    (c.check [within (eventually .all q) w]).1.result ≠ .ok () := by
  intro c q w
  refine ⟨by decide, by decide, by decide, rfl, fun _ _ _ => ⟨true, rfl⟩, fun i _ path _ => ?_,
    by decide +kernel⟩
  have hcost : path.cost 0 = .zero := rfl
  refine ⟨0, ?_, .inl not_holds_falsum⟩
  rw [hcost]
  decide

end Checker

end CostCTL
