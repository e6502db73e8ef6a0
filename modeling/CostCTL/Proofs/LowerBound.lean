import CostCTL.Proofs.Ruling

/-!
# Invariance from a lower bound on

A window of lower bounds is never left once it is reached. What is checked for all positions inside
such a window is checked exactly: every walk from an initial node is covered by what was visited, up
to positions that are both inside, which do not differ in what follows (`Search.Covers`). A cycle
that is closed inside the window can be cut, because all of it was visited inside the window.

With `!=` a window can be left and reached again, and the answer may be wrong
(`Checker.check_always_within_ne`).
-/

namespace CostCTL

variable {g : Kripke} {s t : Search} {p : Formula} {w : Window}

/-! ### Costs that a lower bound does not tell apart -/

/-- All statements of the window are lower bounds. -/
def Window.isLower (w : Window) : Bool :=
  w.toList.all fun x => x.relation == .gt || x.relation == .ge

namespace Window

variable {c d e : Cost}

theorem isUnbounded_of_isLower (hw : w.isLower = true) : w.isUnbounded = true := by
  refine List.all_eq_true.mpr fun x hx => ?_
  have := List.all_eq_true.mp hw x hx
  simp_all

theorem isConvex_of_isLower (hw : w.isLower = true) : w.isConvex = true := by
  refine List.all_eq_true.mpr fun x hx => ?_
  have := List.all_eq_true.mp hw x hx
  revert this
  cases x.relation <;> simp

theorem satisfied_of_not_isAhead (hw : w.isUnbounded = true) (h : w.isAhead c = false) :
    w.verdict c = .satisfied :=
  (verdict_of_not_isAhead h).resolve_right fun ⟨_, hx⟩ => not_violated_of_isUnbounded hw hx

theorem satisfied_mono (hw : w.isLower = true) (h : w.verdict c = .satisfied) (hcd : c ≤ d) :
    w.verdict d = .satisfied :=
  satisfied_of_not_isAhead (isUnbounded_of_isLower hw)
    (isAhead_mono (isConvex_of_isLower hw) (isAhead_of_satisfied h) hcd)

/-- The same cost, or both inside the window. -/
def Alike (w : Window) (c d : Cost) : Prop :=
  c = d ∨ (w.verdict c = .satisfied ∧ w.verdict d = .satisfied)

theorem Alike.refl (c : Cost) : w.Alike c c := .inl rfl

theorem Alike.symm (h : w.Alike c d) : w.Alike d c := h.imp Eq.symm And.symm

theorem Alike.trans (h : w.Alike c d) (h' : w.Alike d e) : w.Alike c e := by
  rcases h with rfl | ⟨hc, hd⟩
  · exact h'
  · rcases h' with rfl | ⟨-, he⟩
    · exact .inr ⟨hc, hd⟩
    · exact .inr ⟨hc, he⟩

theorem Alike.satisfied (h : w.Alike c d) (hd : w.verdict d = .satisfied) :
    w.verdict c = .satisfied := by
  rcases h with rfl | ⟨hc, -⟩
  · exact hd
  · exact hc

theorem Alike.add (hw : w.isLower = true) (h : w.Alike c d) (e : Cost) :
    w.Alike (c + e) (d + e) :=
  h.imp (fun h => by rw [h]) fun ⟨hc, hd⟩ =>
    ⟨satisfied_mono hw hc (Cost.le_add c e), satisfied_mono hw hd (Cost.le_add d e)⟩

end Window

/-! ### What a search has covered -/

namespace Search

variable {f : Formula} {n : NodeId} {c d : Cost} {j : Job} {rest : List Job}

/-- The formula was looked at, at this node and cost. -/
def Saw (f : Formula) (w : Window) (s : Search) (n : NodeId) (c : Cost) : Prop :=
  VisitKey.mk n f false w (if w.isEmpty then .zero else c) none none ∈ s.visited

/-- The formula was looked at, or is going to be, at this node and a cost that is alike. -/
def Covers (f : Formula) (w : Window) (s : Search) (n : NodeId) (c : Cost) : Prop :=
  ∃ d, w.Alike c d ∧ (s.Saw f w n d ∨ ∃ j ∈ s.queue, j.formula = f ∧ j.node = n ∧ j.cost = d)

theorem Saw.covers (h : s.Saw f w n d) (hc : w.Alike c d) : s.Covers f w n c := ⟨d, hc, .inl h⟩

theorem Covers.of_alike (h : s.Covers f w n d) (hc : w.Alike c d) : s.Covers f w n c := by
  obtain ⟨e, he, h⟩ := h
  exact ⟨e, hc.trans he, h⟩

theorem covers_of_mem (hj : j ∈ s.queue) (hf : j.formula = f) : s.Covers f w j.node j.cost :=
  ⟨j.cost, .refl _, .inr ⟨j, hj, hf, rfl, rfl⟩⟩

theorem Covers.mono (h : s.Covers f w n c) (hv : s.visited ⊆ t.visited)
    (hq : ∀ j ∈ s.queue, j.formula = f → t.Covers f w j.node j.cost) : t.Covers f w n c := by
  obtain ⟨d, hd, hsaw | ⟨j, hj, hf, rfl, rfl⟩⟩ := h
  · exact ⟨d, hd, .inl (hv hsaw)⟩
  · exact (hq j hj hf).of_alike hd

/-- A job that is not in a cycle looks at its own node and cost. -/
theorem visitKey_of_swept (hj : j.Swept f w) (hf : j.formula = f) (hw : j.window = w)
    (hc : j.inCycle = false) :
    j.visitKey = ⟨j.node, f, false, w, if w.isEmpty then .zero else j.cost, none, none⟩ := by
  rw [Job.visitKey, hf, hc, Context.relevantCost, hw, hj.link, hj.session]

/-- Costs that are not told apart by a key are alike. -/
theorem alike_of_eq (h : (if w.isEmpty then .zero else c) = if w.isEmpty then Cost.zero else d) :
    w.Alike c d := by
  cases hw : w.isEmpty with
  | true => exact .inr ⟨Window.verdict_of_isEmpty hw, Window.verdict_of_isEmpty hw⟩
  | false =>
    rw [hw] at h
    exact .inl h

/-- Where the formula was looked at, what it asks for inside the window is so, and the successors
are covered. So is every initial node. -/
structure Sound (g : Kripke) (p : Formula) (w : Window) (s : Search) : Prop where
  history : ∀ j ∈ s.queue, j.formula = .always .all p →
    ∀ n seen, j.history.get? n = some seen → s.Saw (.always .all p) w n seen
  seen : ∀ n c, s.Saw (.always .all p) w n c → (w.verdict c = .satisfied → p.Holds g n) ∧
    ∀ e ∈ g.successors n, s.Covers (.always .all p) w e.target (c + e.cost)
  start : ∀ i ∈ g.initial, Job.root i (.within (.always .all p) w) ∈ s.queue ∨
    s.Covers (.always .all p) w i .zero
  rooted : ∀ i, (Job.root i (.within (.always .all p) w)).visitKey ∈ s.visited →
    s.Covers (.always .all p) w i .zero

namespace Sound

/-- A cycle is closed only where the formula was looked at. -/
theorem covers_of_inCycle (h : s.Sound g p w) (hw : w.isUnbounded = true) (hj : j ∈ s.queue)
    (hf : j.formula = .always .all p) (hjw : j.window = w) (hc : j.inCycle = true) :
    ∃ seen, w.Alike j.cost seen ∧ s.Saw (.always .all p) w j.node seen := by
  unfold Context.inCycle closesCycle at hc
  split at hc
  · next seen hseen =>
    refine ⟨seen, ?_, h.history j hj hf _ _ hseen⟩
    rw [Bool.or_eq_true, Bool.not_eq_true', Bool.or_eq_false_iff, beq_iff_eq, hjw] at hc
    rcases hc with rfl | ⟨hseen, hcost⟩
    · exact .refl _
    · exact .inr ⟨Window.satisfied_of_not_isAhead hw hcost, Window.satisfied_of_not_isAhead hw hseen⟩
  · cases hc

/-- What is to be shown of a turn on `j`: it is covered from now on, and so is what follows from what
it looked at. -/
theorem turn (h : s.Sound g p w) (hq : s.Takes j rest) (jobs : List Job)
    {keys : List VisitKey}
    (ht : t = { s with queue := rest ++ jobs, visited := s.visited ++ keys })
    (hcovers : j.formula = .always .all p → t.Covers (.always .all p) w j.node j.cost)
    (hroot : ∀ i, j = .root i (.within (.always .all p) w) →
      s.Covers (.always .all p) w i .zero ∨ t.Covers (.always .all p) w i .zero)
    (hhistory : ∀ j' ∈ jobs, j'.formula = .always .all p →
      ∀ n seen, j'.history.get? n = some seen → t.Saw (.always .all p) w n seen)
    (hseen : ∀ n c, t.Saw (.always .all p) w n c → s.Saw (.always .all p) w n c ∨
      ((w.verdict c = .satisfied → p.Holds g n) ∧
        ∀ e ∈ g.successors n, t.Covers (.always .all p) w e.target (c + e.cost)))
    (hkeys : ∀ i, (Job.root i (.within (.always .all p) w)).visitKey ∈ keys →
      j = .root i (.within (.always .all p) w)) : t.Sound g p w := by
  have hsub : s.visited ⊆ t.visited := by simp [ht]
  have hrest {j' : Job} (hj' : j' ∈ s.queue) : j' = j ∨ j' ∈ t.queue :=
    (hq.mem_iff.mp hj').imp_right fun hj' => by simp [ht, hj']
  have hmono {n : NodeId} {c : Cost} (hc : s.Covers (.always .all p) w n c) :
      t.Covers (.always .all p) w n c :=
    hc.mono hsub fun j' hj' hf => by
      rcases hrest hj' with rfl | hj'
      · exact hcovers hf
      · exact covers_of_mem hj' hf
  constructor
  case history =>
    intro j' hj' hf n seen hget
    rw [ht] at hj'
    rcases List.mem_append.mp hj' with hj' | hj'
    · exact hsub (h.history j' (hq.rest_subset hj') hf n seen hget)
    · exact hhistory j' hj' hf n seen hget
  case seen =>
    intro n c hsaw
    rcases hseen n c hsaw with hs | hs
    · exact ⟨(h.seen n c hs).1, fun e he => hmono ((h.seen n c hs).2 e he)⟩
    · exact hs
  case start =>
    intro i hi
    rcases h.start i hi with hj | hc
    · rcases hrest hj with heq | hj
      · exact .inr ((hroot i heq.symm).elim hmono id)
      · exact .inl hj
    · exact .inr (hmono hc)
  case rooted =>
    intro i hi
    rw [ht] at hi
    rcases List.mem_append.mp hi with hi | hi
    · exact hmono (h.rooted i hi)
    · exact (hroot i (hkeys i hi)).elim hmono id

/-- A job that is dropped, or decided by a cycle, was covered before. -/
theorem drop (h : s.Sound g p w) (hw : w.isUnbounded = true) (hq : s.Takes j rest)
    (hj : j.Swept (.always .all p) w) {keys : List VisitKey}
    (ht : t = { s with queue := rest, visited := s.visited ++ keys })
    (hk : keys = [] ∧ j.visitKey ∈ s.visited ∨
      keys = [j.visitKey] ∧ j.formula = .always .all p ∧ j.inCycle = true) : t.Sound g p w := by
  have hsub : s.visited ⊆ t.visited := by simp [ht]
  -- the key of a job in a cycle says nothing about where the formula was looked at
  have hsaw {n : NodeId} {c : Cost} (hs : t.Saw (.always .all p) w n c) :
      s.Saw (.always .all p) w n c := by
    rw [Saw, ht] at hs
    rcases hk with ⟨rfl, -⟩ | ⟨rfl, -, hc⟩
    · rwa [List.append_nil] at hs
    · refine (List.mem_append.mp hs).resolve_right fun hkey => ?_
      have := congrArg VisitKey.inCycle (List.mem_singleton.mp hkey)
      rw [Job.visitKey, hc] at this
      cases this
  refine h.turn hq [] (by rw [ht, List.append_nil]) (fun hf => ?_) (fun i hi => ?_)
    (fun j' hj' => absurd hj' List.not_mem_nil) (fun n c hs => .inl (hsaw hs)) (fun i hi => ?_)
  · have hjw : j.window = w := by
      rcases hj.formula with ⟨-, hjw⟩ | hroot
      · exact hjw
      · rw [hroot] at hf
        cases hf
    cases hc : j.inCycle with
    | true =>
      obtain ⟨seen, halike, hs⟩ := h.covers_of_inCycle hw hq.mem hf hjw hc
      exact Saw.covers (hsub hs) halike
    | false =>
      have hv : j.visitKey ∈ s.visited := hk.elim And.right fun hk => by simp [hk.2.2] at hc
      rw [visitKey_of_swept hj hf hjw hc] at hv
      exact Saw.covers (hsub hv) (.refl _)
  · rcases hk with ⟨-, hv⟩ | ⟨-, hf, -⟩
    · exact .inl (h.rooted i (hi ▸ hv))
    · rw [hi] at hf
      cases hf
  · rcases hk with ⟨rfl, -⟩ | ⟨rfl, hf, -⟩
    · cases hi
    · have := congrArg VisitKey.formula (List.mem_singleton.mp hi)
      cases this.trans hf

/-- The formula goes on from where it was looked at. -/
theorem spread (h : s.Sound g p w) (hw : w.isLower = true) (hq : s.Takes j rest)
    (hj : j.Swept (.always .all p) w) (hf : j.formula = .always .all p) (hjw : j.window = w)
    (hr : (Formula.always .all p).Ruled g j.toContext .on)
    (ht : t = { s with
      queue := rest ++ j.spread g none j.leave (.always .all p)
      visited := s.visited ++ [j.visitKey] }) : t.Sound g p w := by
  have hc : j.inCycle = false := by
    cases hr with
    | early hc | kept hc => exact hc
  have hkey := visitKey_of_swept hj hf hjw hc
  have hsaw : t.Saw (.always .all p) w j.node j.cost := by
    rw [Saw, ht, ← hkey]
    exact List.mem_append_right _ (List.mem_singleton_self _)
  have hholds (hs : w.verdict j.cost = .satisfied) : p.Holds g j.node := by
    cases hr with
    | early _ hw =>
      rw [hjw, Window.isAhead_of_satisfied hs] at hw
      cases hw
    | kept _ _ _ hk => exact hk
  refine h.turn hq _ ht (fun _ => hsaw.covers (.refl _)) (fun i hi => ?_) (fun j' hj' _ n seen hget => ?_)
    (fun n c hs => ?_) (fun i hi => ?_)
  · rw [hi] at hf
    cases hf
  · obtain ⟨e, -, rfl⟩ := List.mem_map.mp hj'
    have hget : j.leave.get? n = some seen := hget
    rw [Context.get?_leave] at hget
    split at hget
    · next hn =>
      cases hget
      rw [beq_iff_eq.mp hn]
      exact hsaw
    · have := h.history j hq.mem hf n seen hget
      rw [Saw, ht]
      exact List.mem_append_left _ this
  · rw [Saw, ht] at hs
    refine (List.mem_append.mp hs).imp_right fun hs => ?_
    rw [List.mem_singleton, hkey, VisitKey.mk.injEq] at hs
    obtain ⟨rfl, -, -, -, hcost, -⟩ := hs
    have halike := alike_of_eq hcost
    refine ⟨fun hs => hholds (halike.symm.satisfied hs), fun e he => ?_⟩
    refine ⟨j.cost + e.cost, halike.add hw e.cost, .inr ⟨⟨j.follow j.leave e, .always .all p, none⟩,
      ?_, rfl, rfl, rfl⟩⟩
    rw [ht]
    exact List.mem_append_right _ (List.mem_map_of_mem he)
  · have := congrArg VisitKey.formula (List.mem_singleton.mp hi)
    cases this.trans hf

/-- A job on the initial node is constrained to the window. -/
theorem constrain (h : s.Sound g p w) {i : NodeId}
    (hq : s.Takes (.root i (.within (.always .all p) w)) rest)
    (ht : t = { s with
      queue := rest ++ [⟨{ Context.start i with window := w }, .always .all p, none⟩]
      visited := s.visited ++ [(Job.root i (.within (.always .all p) w)).visitKey] }) :
    t.Sound g p w := by
  refine h.turn hq _ ht (fun hf => by cases hf) (fun k hk => .inr ?_) (fun j' hj' _ n seen hget => ?_)
    (fun n c hs => .inl ?_) (fun k hk => ?_)
  · have hmem : (⟨{ Context.start i with window := w }, .always .all p, none⟩ : Job) ∈ t.queue := by
      rw [ht]
      exact List.mem_append_right _ (List.mem_singleton_self _)
    cases congrArg (·.node) hk
    exact covers_of_mem hmem rfl
  · rw [List.mem_singleton.mp hj'] at hget
    cases hget
  · rw [Saw, ht] at hs
    refine (List.mem_append.mp hs).resolve_right fun hs => ?_
    cases congrArg VisitKey.formula (List.mem_singleton.mp hs)
  · have hnode := congrArg VisitKey.node (List.mem_singleton.mp hk)
    cases hnode
    rfl

/-- Every turn keeps what is covered. -/
theorem sweep (h : s.Sound g p w) (hw : w.isLower = true)
    (hs : ∀ j ∈ s.queue, j.Swept (.always .all p) w) (hst : Sweep g (.always .all p) w s t) : t.Sound g p w := by
  have hu := Window.isUnbounded_of_isLower hw
  cases hst with
  | repeated hq hv =>
    exact h.drop hu hq (hs _ hq.mem) (by rw [List.append_nil]) (.inl ⟨rfl, hv⟩)
  | constrain hq hv => exact h.constrain hq rfl
  | on hq hv hf hjw hr => exact h.spread hw hq (hs _ hq.mem) hf hjw hr rfl
  | met hq hv hf hjw hr =>
    refine h.drop hu hq (hs _ hq.mem) rfl (.inr ⟨rfl, hf, ?_⟩)
    cases hr with
    | passed hc => exact hc
    | ended _ _ he => exact absurd he Formula.not_holds_falsum

theorem seed (g : Kripke) (order : PendingOrder) (p : Formula) (w : Window) :
    ((Search.start order).seed g (.within (.always .all p) w)).Sound g p w where
  history j hj hf := by
    obtain ⟨i, -, rfl⟩ := List.mem_map.mp hj
    cases hf
  seen n c h := by cases h
  start i hi := .inl (List.mem_map_of_mem hi)
  rooted i h := by cases h

/-- In the end the formula was looked at wherever it is covered. -/
theorem saw_of_walk (h : s.Sound g p w) (hw : w.isLower = true) (hs : s.queue = []) {m n : NodeId}
    {edges : List Edge} (hwalk : g.Walk m edges n) {costs : List Cost}
    (hm : ∃ d, w.Alike (.total costs) d ∧ s.Saw (.always .all p) w m d) :
    ∃ d, w.Alike (.total (costs ++ edges.map (·.cost))) d ∧ s.Saw (.always .all p) w n d := by
  induction hwalk generalizing costs with
  | nil => simpa using hm
  | @cons i k e l he hrest ih =>
    obtain ⟨d, hd, hsaw⟩ := hm
    rw [List.map_cons, ← List.singleton_append, ← List.append_assoc]
    refine ih ?_
    obtain ⟨d', hd', hc⟩ := (h.seen i d hsaw).2 e he
    rw [Cost.total_append]
    exact ⟨d', (hd.add hw e.cost).trans hd', hc.resolve_right (by simp [hs])⟩

end Sound

end Search

open Formula

/-- A search for an invariant fails only at a node inside the window where it is false. -/
theorem Search.Sweeps.not_holds_of_ruled {e : Formula} (h : s.Sweeps g e (.always .all p) w)
    (hw : w.isUnbounded = true) {j : Job} (hj : j ∈ s.queue) (hjw : j.window = w) {v : Violation}
    (hr : (always .all p).Ruled g j.toContext (.fail v)) :
    ∃ i ∈ g.initial, ∃ edges, g.Walk i edges j.node ∧
      w.verdict (.total (edges.map (·.cost))) = .satisfied ∧ ¬ p.Holds g j.node := by
  obtain ⟨order, hcourse⟩ := h.course
  have htraced : j.toContext.OnWalk g := (hcourse.traced.queue j hj).2
  obtain ⟨i, hi, edges, hwalk, -, hcost⟩ := htraced.walk
  cases hr with
  | missed _ he => cases he
  | late _ hx =>
    rw [hjw] at hx
    exact absurd hx (Window.not_violated_of_isUnbounded hw)
  | broken _ hs _ hk =>
    rw [hjw, hcost] at hs
    exact ⟨i, hi, edges, hwalk, hs, hk⟩

namespace Checker

/-- Within a window that cannot be passed, an invariant is refuted only by a walk that ends inside
the window where it is false. If all statements of the window are lower bounds, every such walk is
found, so the check is exact. -/
theorem check_always_within (c : Checker) (p : Formula) (w : Window)
    (hl : c.settings.popLimit = none) (hp : p.isState = true) (hd : p.IsValuedOn c.graph)
    (hv : (within (always .all p) w).validate = .ok ()) (hw : w.isUnbounded = true) :
    let kept := ∀ i ∈ c.graph.initial, ∀ edges n, c.graph.Walk i edges n →
      (∀ x ∈ w.toList, x.verdict (.total (edges.map (·.cost))) = .satisfied) → p.Holds c.graph n
    (kept → (c.check [within (always .all p) w]).1.result = .ok ()) ∧
    (w.isLower = true → (c.check [within (always .all p) w]).1.result = .ok () → kept) := by
  intro kept
  have hd : p.Evaluates c.graph := hd.evaluates hp
  obtain ⟨past, z, hz, hze, hok⟩ := check_iff_idle hl hv hd
  obtain ⟨u, hu, -⟩ := validateUnder_within hv
  obtain rfl := Window.eq_of_merge_empty hu
  have huniv : (within (always .all p) u).universal = within (always .all p) u := by
    rw [universal, universal_of_isSimple (f := always .all p) hp]
  have hsweep := hz.sweep (f := always .all p) (P := fun s => u.isLower = true → s.Sound c.graph p u)
    hze hp hd hu (.inr huniv) (fun _ => by rw [huniv]; exact .seed ..)
    fun s t hs hP hst hlow => (hP hlow).sweep hlow hs.queue hst
  rw [hok]
  cases hsweep with
  | halt hs hj _ hjw hr hhalts =>
    obtain ⟨i, hi, edges, hwalk, hsat, hnot⟩ := hs.1.not_holds_of_ruled hw hj hjw hr
    exact ⟨fun hkept => absurd (hkept i hi edges _ hwalk (Window.verdict_eq_satisfied_iff.mp hsat)) hnot,
      fun _ hidle => absurd hhalts hidle.not_refuted⟩
  | idle hidle hs =>
    refine ⟨fun _ => hidle, fun hlow _ i hi edges n hwalk hsat => ?_⟩
    have hsound := hs.2 hlow
    have hstart : ∃ d, u.Alike (.total []) d ∧ z.Saw (.always .all p) u i d := by
      obtain ⟨d, hd, hc⟩ := (hsound.start i hi).resolve_left (by simp [hidle.2.2])
      exact ⟨d, hd, hc.resolve_right (by simp [hidle.2.2])⟩
    obtain ⟨d, hd, hsaw⟩ := hsound.saw_of_walk hlow hidle.2.2 hwalk hstart
    exact (hsound.seen n d hsaw).1 (hd.symm.satisfied (Window.verdict_eq_satisfied_iff.mpr hsat))

end Checker

/-- A node that is left at a cost of two, for one that is never left. -/
def Kripke.slide : Kripke where
  nodes := #[⟨⟨∅, false, "up", ""⟩, .read⟩, ⟨⟨∅, false, "down", ""⟩, .read⟩]
  edges := #[[⟨⟨1⟩, ⟨2, 0⟩⟩], [⟨⟨1⟩, ⟨1, 0⟩⟩]]
  initial := (∅ : SortedSet NodeId).insert ⟨0⟩
  size_edges := rfl
  total := by simp
  inside := by simp
  initial_nonempty := toList_insert_first
  initial_inside := by decide

theorem Kripke.Walk.eq_of_slide {edges : List Edge} {i j : NodeId} (h : slide.Walk i edges j)
    (hi : i = ⟨1⟩) : j = ⟨1⟩ := by
  induction h with
  | nil => exact hi
  | cons leaves _ ih =>
    rw [hi] at leaves
    exact ih (by rw [List.mem_singleton.mp leaves])

/-- At the first node the invariant is false, but the window is not open yet. If the node is met again
when the window is open, the invariant is refuted. -/
theorem Checker.check_always_within_slide :
    let w := Window.ofList [⟨.time, .ge, ⟨1, ⟨.time, .pico⟩⟩⟩]
    ((small .slide .breadthFirst).check [within (always .all (.atom (.inState "down"))) w]).1.result =
      .ok () ∧
    ¬ (Formula.atom (.inState "down")).Holds Kripke.slide ⟨0⟩ ∧
    ((small (.swing ⟨2, 0⟩ ⟨1, 0⟩) .breadthFirst).check
      [within (always .all (.atom (.inState "right"))) w]).1.result ≠ .ok () := by
  intro w
  have hvalued (g : Kripke) (state : String) : (Formula.atom (.inState state)).IsValuedOn g :=
    fun _ _ _ => ⟨_, rfl⟩
  refine ⟨?_, ?_, fun hok => ?_⟩
  · refine (check_always_within (small .slide .breadthFirst) (.atom (.inState "down")) w rfl rfl
      (hvalued _ _) (by decide) (by decide)).1 fun i hi edges n hwalk hsat => ?_
    obtain rfl : i = ⟨0⟩ := List.mem_singleton.mp hi
    cases hwalk with
    | nil => exact absurd hsat (by decide)
    | cons leaves rest =>
      rw [List.mem_singleton.mp leaves] at rest
      rw [rest.eq_of_slide rfl]
      exact ⟨_, rfl, by decide⟩
  · rintro ⟨node, hn, h⟩
    cases hn
    revert h
    decide
  · have hkept := (check_always_within (small (.swing ⟨2, 0⟩ ⟨1, 0⟩) .breadthFirst)
      (.atom (.inState "right")) w rfl rfl (hvalued _ _) (by decide) (by decide)).2 (by decide) hok
    obtain ⟨node, hn, h⟩ := hkept ⟨0⟩ (by decide) [⟨⟨1⟩, ⟨2, 0⟩⟩, ⟨⟨0⟩, ⟨1, 0⟩⟩] ⟨0⟩
      (.cons (by decide) (.cons (by decide) (.nil _))) (by decide)
    cases hn
    revert h
    decide

/-- With `!=` the check is not exact. The second node is first met where the window is left, and then
the cycle is cut at the first node, inside the window. -/
theorem Checker.check_always_within_ne :
    let g := Kripke.swing ⟨2, 0⟩ ⟨1, 0⟩
    let p := Formula.atom (.inState "left")
    let w := Window.ofList [⟨.time, .ne, ⟨2, ⟨.time, .pico⟩⟩⟩]
    w.isUnbounded = true ∧ (within (always .all p) w).validate = .ok () ∧
    (∀ order, ((small g order).check [within (always .all p) w]).1.result = .ok ()) ∧
    ∃ edges, g.Walk ⟨0⟩ edges ⟨1⟩ ∧
      (∀ x ∈ w.toList, x.verdict (.total (edges.map (·.cost))) = .satisfied) ∧ ¬ p.Holds g ⟨1⟩ := by
  refine ⟨by decide, by decide, fun order => ?_, ?_⟩
  · cases order <;> decide +kernel
  · refine ⟨[⟨⟨1⟩, ⟨2, 0⟩⟩, ⟨⟨0⟩, ⟨1, 0⟩⟩, ⟨⟨1⟩, ⟨2, 0⟩⟩], ?_, by decide, ?_⟩
    · exact .cons (by decide) (.cons (by decide) (.cons (by decide) (.nil _)))
    · rintro ⟨node, hn, h⟩
      cases hn
      revert h
      decide

end CostCTL
