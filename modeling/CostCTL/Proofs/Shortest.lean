import CostCTL.Proofs.LowerBound

/-!
# Shortest counterexamples

Breadth first, an invariant is looked at level by level. The jobs wait in the order of the lengths
of their trails, which differ by one at most, and no node was looked at later than the jobs that
still wait (`Search.Leveled`). A job that is dropped, as a duplicate or because it closed a cycle,
comes to a node that was looked at before, so nothing is lost by it. The first node where the
invariant is false is therefore found on a shortest walk (`Checker.check_always_shortest`).

The requirement has to pass validation. A part that never has to be looked at may be malformed
(`Checker.check_always_malformed`).
-/

namespace CostCTL

variable {g : Kripke} {s t : Search} {p : Formula} {level : NodeId → Nat}

theorem Context.history_of_inCycle {c : Context} (h : c.inCycle = true) :
    c.history.get? c.node ≠ none := by
  intro hnone
  rw [inCycle, closesCycle, hnone] at h
  cases h

/-! ### Levels of the queue -/

/-- Jobs with shorter trails come first, and the lengths differ by one at most. -/
structure Layered (queue : List Job) : Prop where
  sorted : queue.Pairwise fun a b => a.trail.length ≤ b.trail.length
  close : ∀ a ∈ queue, ∀ b ∈ queue, a.trail.length ≤ b.trail.length + 1

namespace Layered

variable {j k : Job} {rest : List Job}

theorem of_forall {n : Nat} (h : ∀ j ∈ rest, j.trail.length = n) : Layered rest where
  sorted := List.pairwise_of_forall_mem_list fun a ha b hb => by rw [h a ha, h b hb]
  close a ha b hb := by
    rw [h a ha, h b hb]
    omega

theorem tail (h : Layered (j :: rest)) : Layered rest where
  sorted := h.sorted.of_cons
  close a ha b hb := h.close a (List.mem_cons_of_mem j ha) b (List.mem_cons_of_mem j hb)

theorem head_le (h : Layered (j :: rest)) (hk : k ∈ j :: rest) :
    j.trail.length ≤ k.trail.length := by
  rcases List.mem_cons.mp hk with rfl | hk
  · exact le_rfl
  · exact List.rel_of_pairwise_cons h.sorted hk

/-- What comes of the first job is one level further. -/
theorem spread (h : Layered (j :: rest)) {new : List Job}
    (hnew : ∀ k ∈ new, k.trail.length = j.trail.length + 1) :
    Layered (rest ++ new) ∧ ∀ k ∈ rest ++ new, j.trail.length ≤ k.trail.length := by
  have hlow : ∀ k ∈ rest ++ new, j.trail.length ≤ k.trail.length := fun k hk => by
    rcases List.mem_append.mp hk with hk | hk
    · exact h.head_le (List.mem_cons_of_mem j hk)
    · rw [hnew k hk]
      omega
  have hhigh : ∀ k ∈ rest ++ new, k.trail.length ≤ j.trail.length + 1 := fun k hk => by
    rcases List.mem_append.mp hk with hk | hk
    · exact h.close k (List.mem_cons_of_mem j hk) j List.mem_cons_self
    · rw [hnew k hk]
  refine ⟨⟨?_, fun a ha b hb => ?_⟩, hlow⟩
  · refine List.pairwise_append.mpr ⟨h.tail.sorted, (of_forall hnew).sorted, fun a ha b hb => ?_⟩
    rw [hnew b hb]
    exact hhigh a (List.mem_append_left new ha)
  · have := hhigh a ha
    have := hlow b hb
    omega

end Layered

/-! ### Levels of the search -/

namespace Search

variable {n : NodeId} {j : Job} {rest : List Job}

/-- What the first visit of a node leaves behind. -/
def plainKey (p : Formula) (n : NodeId) : VisitKey :=
  ⟨n, .always .all p, false, ∅, .zero, none, none⟩

/-- The invariant was looked at, at this node. -/
def Tried (p : Formula) (s : Search) (n : NodeId) : Prop := plainKey p n ∈ s.visited

theorem plainKey_inj {m : NodeId} : plainKey p m = plainKey p n ↔ m = n := by
  simp [plainKey]

theorem visitKey_eq (hs : j.Swept (.always .all p) ∅) (hf : j.formula = .always .all p)
    (hw : j.window = ∅) (hc : j.inCycle = false) : j.visitKey = plainKey p j.node :=
  visitKey_of_swept hs hf hw hc

/-- The node was looked at, or a job waits for it, by the given level. -/
def Comes (p : Formula) (level : NodeId → Nat) (s : Search) (n : NodeId) (k : Nat) : Prop :=
  (s.Tried p n ∧ level n ≤ k) ∨ ∃ j ∈ s.queue, j.node = n ∧ j.trail.length ≤ k

/-- The search has come to its nodes level by level. -/
structure Leveled (g : Kripke) (p : Formula) (level : NodeId → Nat) (s : Search) : Prop where
  order : s.order = .breadthFirst
  formula : ∀ j ∈ s.queue, j.formula = .always .all p ∧ j.window = ∅
  layered : Layered s.queue
  history : ∀ j ∈ s.queue, ∀ n, j.history.get? n ≠ none → s.Tried p n
  before : ∀ n, s.Tried p n → ∀ j ∈ s.queue, level n ≤ j.trail.length
  tried : ∀ n, s.Tried p n → p.Holds g n ∧
    ∀ e ∈ g.successors n, s.Comes p level e.target (level n + 1)
  start : ∀ i ∈ g.initial, s.Comes p level i 1

namespace Leveled

theorem queue_eq (h : s.Leveled g p level) (hq : s.Takes j rest) : s.queue = j :: rest := by
  rw [Takes, h.order] at hq
  exact hq

theorem seed (g : Kripke) (p : Formula) :
    ((Search.start .breadthFirst).seed g (.always .all p)).Leveled g p fun _ => 0 := by
  have hroot : ∀ j ∈ ((Search.start .breadthFirst).seed g (.always .all p)).queue,
      ∃ i, j = .root i (.always .all p) := fun j hj => by
    obtain ⟨i, -, rfl⟩ := List.mem_map.mp hj
    exact ⟨i, rfl⟩
  constructor
  case order => rfl
  case formula =>
    intro j hj
    obtain ⟨i, rfl⟩ := hroot j hj
    exact ⟨rfl, rfl⟩
  case layered =>
    refine .of_forall (n := 1) fun j hj => ?_
    obtain ⟨i, rfl⟩ := hroot j hj
    rfl
  case history =>
    intro j hj n hn
    obtain ⟨i, rfl⟩ := hroot j hj
    exact absurd rfl hn
  case before => exact fun n hn => nomatch hn
  case tried => exact fun n hn => nomatch hn
  case start => exact fun i hi => .inr ⟨_, List.mem_map_of_mem hi, rfl, le_rfl⟩

/-- A job is dropped whose node was looked at before. -/
theorem drop (h : s.Leveled g p level) (hq : s.Takes j rest) (hj : s.Tried p j.node)
    (ho : t.order = s.order) (ht : t.queue = rest) (htried : ∀ n, t.Tried p n ↔ s.Tried p n) :
    t.Leveled g p level := by
  have hsub : ∀ k ∈ t.queue, k ∈ s.queue := fun k hk => hq.rest_subset (ht ▸ hk)
  have hcomes : ∀ n k, s.Comes p level n k → t.Comes p level n k := by
    rintro n k (⟨hn, hle⟩ | ⟨j', hj', rfl, hle⟩)
    · exact .inl ⟨(htried n).mpr hn, hle⟩
    · rcases hq.mem_iff.mp hj' with rfl | hj'
      · exact .inl ⟨(htried _).mpr hj, (h.before _ hj _ hq.mem).trans hle⟩
      · exact .inr ⟨j', ht ▸ hj', rfl, hle⟩
  constructor
  case order => exact ho.trans h.order
  case formula => exact fun k hk => h.formula k (hsub k hk)
  case layered =>
    rw [ht]
    exact (h.queue_eq hq ▸ h.layered).tail
  case history => exact fun k hk n hn => (htried n).mpr (h.history k (hsub k hk) n hn)
  case before => exact fun n hn k hk => h.before n ((htried n).mp hn) k (hsub k hk)
  case tried =>
    intro n hn
    obtain ⟨hp, hsucc⟩ := h.tried n ((htried n).mp hn)
    exact ⟨hp, fun e he => hcomes _ _ (hsucc e he)⟩
  case start => exact fun i hi => hcomes _ _ (h.start i hi)

/-- The invariant is looked at, at the node of the job, and goes on to the next level. -/
theorem spread (h : s.Leveled g p level) (hq : s.Takes j rest) (hj : ¬ s.Tried p j.node)
    (hp : p.Holds g j.node) (ho : t.order = s.order)
    (ht : t.queue = rest ++ j.spread g none j.leave (.always .all p))
    (htried : ∀ n, t.Tried p n ↔ s.Tried p n ∨ n = j.node) :
    t.Leveled g p (Function.update level j.node j.trail.length) := by
  have hnew : ∀ k ∈ t.queue, k ∈ s.queue ∨ ∃ e ∈ g.successors j.node,
      k = ⟨j.follow j.leave e, .always .all p, none⟩ := fun k hk => by
    rw [ht, List.mem_append] at hk
    refine hk.imp (fun hk => hq.rest_subset hk) fun hk => ?_
    obtain ⟨e, he, rfl⟩ := List.mem_map.mp hk
    exact ⟨e, he, rfl⟩
  have hlength : ∀ k ∈ j.spread g none j.leave (.always .all p),
      k.trail.length = j.trail.length + 1 := fun k hk => by
    obtain ⟨e, -, rfl⟩ := List.mem_map.mp hk
    rfl
  have hlayers := (h.queue_eq hq ▸ h.layered).spread hlength
  rw [← ht] at hlayers
  have hlevel : ∀ n, s.Tried p n → Function.update level j.node j.trail.length n = level n :=
    fun n hn => Function.update_of_ne (by rintro rfl; exact hj hn) _ _
  have hcomes : ∀ n k, s.Comes p level n k →
      t.Comes p (Function.update level j.node j.trail.length) n k := by
    rintro n k (⟨hn, hle⟩ | ⟨j', hj', rfl, hle⟩)
    · exact .inl ⟨(htried n).mpr (.inl hn), by rwa [hlevel n hn]⟩
    · rcases hq.mem_iff.mp hj' with rfl | hj'
      · exact .inl ⟨(htried _).mpr (.inr rfl), by rwa [Function.update_self]⟩
      · exact .inr ⟨j', by rw [ht]; exact List.mem_append_left _ hj', rfl, hle⟩
  constructor
  case order => exact ho.trans h.order
  case formula =>
    intro k hk
    rcases hnew k hk with hk | ⟨e, -, rfl⟩
    · exact h.formula k hk
    · exact ⟨rfl, (h.formula j hq.mem).2⟩
  case layered => exact hlayers.1
  case history =>
    intro k hk n hn
    rcases hnew k hk with hk | ⟨e, -, rfl⟩
    · exact (htried n).mpr (.inl (h.history k hk n hn))
    · have hn : j.leave.get? n ≠ none := hn
      rw [Context.get?_leave] at hn
      split at hn
      · next heq => exact (htried n).mpr (.inr (beq_iff_eq.mp heq))
      · exact (htried n).mpr (.inl (h.history j hq.mem n hn))
  case before =>
    intro n hn k hk
    rcases (htried n).mp hn with hn | rfl
    · rw [hlevel n hn]
      exact (h.before n hn j hq.mem).trans (hlayers.2 k hk)
    · rw [Function.update_self]
      exact hlayers.2 k hk
  case tried =>
    intro n hn
    rcases (htried n).mp hn with hn | rfl
    · obtain ⟨hp', hsucc⟩ := h.tried n hn
      rw [hlevel n hn]
      exact ⟨hp', fun e he => hcomes _ _ (hsucc e he)⟩
    · refine ⟨hp, fun e he => .inr ⟨⟨j.follow j.leave e, .always .all p, none⟩, ?_, rfl, ?_⟩⟩
      · rw [ht]
        exact List.mem_append_right _ (List.mem_map_of_mem he)
      · rw [Function.update_self]
        exact le_rfl
  case start => exact fun i hi => hcomes _ _ (h.start i hi)

/-- A node that closes a cycle was looked at, and so was the node of a duplicate. -/
theorem tried_of_repeated (h : s.Leveled g p level) (hj : j ∈ s.queue)
    (hs : j.Swept (.always .all p) ∅) (hv : j.inCycle = true ∨ j.visitKey ∈ s.visited) :
    s.Tried p j.node := by
  cases hc : j.inCycle with
  | true => exact h.history j hj _ (Context.history_of_inCycle hc)
  | false =>
    obtain ⟨hf, hw⟩ := h.formula j hj
    have hv := hv.resolve_left (by simp [hc])
    rwa [visitKey_eq hs hf hw hc] at hv

/-- Every turn keeps the levels. -/
theorem sweep (h : s.Leveled g p level) (hs : ∀ j ∈ s.queue, j.Swept (.always .all p) ∅)
    (hst : Sweep g (.always .all p) ∅ s t) : ∃ level', t.Leveled g p level' := by
  cases hst with
  | @repeated j rest hq hv =>
    exact ⟨level, h.drop hq (h.tried_of_repeated hq.mem (hs j hq.mem) (.inr hv)) rfl rfl
      fun n => Iff.rfl⟩
  | constrain hq hv =>
    cases (h.formula _ hq.mem).1
  | @on j rest hq hv hf hw hr =>
    have hahead : j.window.isAhead j.cost = false := by
      rw [hw]
      rfl
    obtain ⟨hc, hp⟩ : j.inCycle = false ∧ p.Holds g j.node := by
      cases hr with
      | early _ ha => rw [hahead] at ha; cases ha
      | kept hc _ _ hk => exact ⟨hc, hk⟩
    have hkey := visitKey_eq (hs j hq.mem) hf hw hc
    refine ⟨_, h.spread hq (fun htried => hv ?_) hp rfl rfl fun n => ?_⟩
    · rwa [hkey]
    · rw [Tried, List.mem_append, List.mem_singleton, hkey, plainKey_inj, Tried]
  | @met j rest hq hv hf hw hr =>
    have hc : j.inCycle = true := by
      cases hr with
      | passed hc => exact hc
      | ended _ _ he => exact absurd he Formula.not_holds_falsum
    refine ⟨level, h.drop hq (h.tried_of_repeated hq.mem (hs j hq.mem) (.inl hc)) rfl rfl
      fun n => ?_⟩
    -- the key of a job in a cycle says nothing about where the invariant was looked at
    have hne : plainKey p n ≠ j.visitKey := fun hkey => by
      have := congrArg VisitKey.inCycle hkey
      rw [Job.visitKey, hc] at this
      cases this
    rw [Tried, List.mem_append, List.mem_singleton, or_iff_left hne, Tried]

/-- What comes of a node by a level is carried along a walk. -/
theorem carry (h : s.Leveled g p level) {m : NodeId} {edges : List Edge} (hw : g.Walk m edges n)
    {k : Nat} (hm : (s.Tried p m ∧ level m ≤ k) ∨ ∃ j ∈ s.queue, j.trail.length ≤ k) :
    (s.Tried p n ∧ level n ≤ k + edges.length) ∨
      ∃ j ∈ s.queue, j.trail.length ≤ k + edges.length := by
  induction hw generalizing k with
  | nil => exact hm
  | @cons i n e l he hrest ih =>
    rw [List.length_cons, ← Nat.add_assoc, Nat.add_right_comm]
    refine ih ?_
    rcases hm with ⟨hi, hle⟩ | ⟨j, hj, hle⟩
    · rcases (h.tried i hi).2 e he with ⟨ht, hle'⟩ | ⟨j, hj, -, hle'⟩
      · exact .inl ⟨ht, by omega⟩
      · exact .inr ⟨j, hj, by omega⟩
    · exact .inr ⟨j, hj, by omega⟩

/-- The end of a walk was looked at, or a job waits that came no further. -/
theorem tried_of_walk (h : s.Leveled g p level) {i : NodeId} (hi : i ∈ g.initial)
    {edges : List Edge} (hw : g.Walk i edges n) :
    s.Tried p n ∨ ∃ j ∈ s.queue, j.trail.length ≤ edges.length + 1 := by
  have hstart : (s.Tried p i ∧ level i ≤ 1) ∨ ∃ j ∈ s.queue, j.trail.length ≤ 1 := by
    rcases h.start i hi with htried | ⟨j, hj, -, hle⟩
    · exact .inl htried
    · exact .inr ⟨j, hj, hle⟩
  rcases h.carry hw hstart with ⟨htried, -⟩ | ⟨j, hj, hle⟩
  · exact .inl htried
  · exact .inr ⟨j, hj, by omega⟩

end Leveled

end Search

/-! ### The check -/

/-- The branch is a walk from an initial node to one where `p` is false, and no such walk is
shorter. -/
def Kripke.IsShortest (g : Kripke) (p : Formula) (branch : List NodeId) : Prop :=
  ∃ i ∈ g.initial, ∃ edges n, g.Walk i edges n ∧ ¬ p.Holds g n ∧
    branch = i :: edges.map (·.target) ∧
    ∀ i' ∈ g.initial, ∀ edges' n', g.Walk i' edges' n' → ¬ p.Holds g n' →
      edges.length ≤ edges'.length

open Formula

/-- The first job that fails came on a shortest walk. -/
theorem Search.Leveled.isShortest (h : s.Leveled g p level) {j : Job} {rest : List Job}
    {v : Violation} (hs : s.Sweeps g (always .all p) (always .all p) ∅) (hq : s.Takes j rest)
    (hr : (always .all p).Ruled g j.toContext (.fail v)) : g.IsShortest p j.branch := by
  obtain ⟨order, hcourse⟩ := hs.course
  have htraced : j.toContext.OnWalk g := (hcourse.traced.queue j hq.mem).2
  obtain ⟨i, hi, edges, hwalk, hbranch, -⟩ := htraced.walk
  obtain ⟨-, -, -, -, -, hnot⟩ := hs.not_holds_of_ruled rfl hq.mem (h.formula j hq.mem).2 hr
  have hlength : j.trail.length = edges.length + 1 := by
    simpa [Context.branch] using congrArg List.length hbranch
  refine ⟨i, hi, edges, j.node, hwalk, hnot, hbranch, fun i' hi' edges' n' hwalk' hnot' => ?_⟩
  rcases h.tried_of_walk hi' hwalk' with htried | ⟨k, hk, hle⟩
  · exact absurd (h.tried n' htried).1 hnot'
  · have hhead := (h.queue_eq hq ▸ h.layered).head_le (h.queue_eq hq ▸ hk)
    omega

/-- A search without jobs has looked at every node that a walk comes to. -/
theorem Search.Leveled.holds_of_walk (h : s.Leveled g p level) (hs : s.queue = []) {i n : NodeId}
    (hi : i ∈ g.initial) {edges : List Edge} (hw : g.Walk i edges n) : p.Holds g n := by
  rcases h.tried_of_walk hi hw with htried | ⟨k, hk, -⟩
  · exact (h.tried n htried).1
  · rw [hs] at hk
    cases hk

namespace Checker

/-- Breadth first, an invariant is accepted if it holds wherever a walk comes to, and otherwise a
shortest walk is found to where it is false. -/
theorem check_always_shortest (c : Checker) (p : Formula) (hl : c.settings.popLimit = none)
    (ho : c.store.config.order = .breadthFirst) (hp : p.isState = true)
    (hd : p.IsValuedOn c.graph) (hv : (always .all p).validate = .ok ()) :
    ((c.check [always .all p]).1.result = .ok () ↔
      ∀ i ∈ c.graph.initial, ∀ edges n, c.graph.Walk i edges n → p.Holds c.graph n) ∧
    ((c.check [always .all p]).1.result = .ok () ∨ ∃ x,
      (c.check [always .all p]).1.result = .error (.error (.unsatisfied 0 (always .all p) x)) ∧
      c.graph.IsShortest p x.branch) := by
  have hd : (always .all p).Evaluates c.graph := hd.evaluates hp
  have huniv : (always .all p).universal = always .all p :=
    universal_of_isSimple (f := always .all p) hp
  obtain ⟨past, z, hz, hresult⟩ := check_of_evaluates hl hv hd
  have hze : z.Ends c.graph := by
    rcases hresult with ⟨hidle, -⟩ | ⟨x, hx, -⟩
    · exact .inl hidle
    · exact .inr ⟨_, hx⟩
  have hsweep := hz.sweep (f := always .all p) (w := ∅)
    (P := fun s => ∃ level, s.Leveled c.graph p level) hze hp hd rfl (.inl ⟨huniv, rfl⟩)
    ⟨_, by rw [huniv, ho]; exact .seed ..⟩
    fun s t hs hP hst => hP.elim fun _ hlevel => hlevel.sweep hs.queue hst
  cases hsweep with
  | idle hidle hs =>
    obtain ⟨level, hlevel⟩ := hs.2
    have hok : (c.check [always .all p]).1.result = .ok () := by
      rcases hresult with ⟨-, hok⟩ | ⟨x, hx, -⟩
      · exact hok
      · exact absurd hx hidle.not_refuted
    exact ⟨iff_of_true hok fun i hi edges n hw => hlevel.holds_of_walk hidle.2.2 hi hw, .inl hok⟩
  | halt hs hj hf hw hr hhalts hnext =>
    obtain ⟨rest, hq⟩ := hnext
    obtain ⟨level, hlevel⟩ := hs.2
    obtain ⟨x, hx, hno⟩ := hresult.resolve_left fun hidle => hidle.1.not_refuted hhalts
    have hshort := hlevel.isShortest hs.1 hq hr
    refine ⟨iff_of_false (by rw [hno]; simp) fun hall => ?_, .inr ⟨x, hno, ?_⟩⟩
    · obtain ⟨i, hi, edges, n, hwalk, hnot, -⟩ := hshort
      exact hnot (hall i hi edges n hwalk)
    · rw [hx.refuted_unique hhalts]
      exact hshort

end Checker

/-- A node with two ways to another one. The longer is added last, so depth first it is taken. -/
def Kripke.detour : Kripke where
  nodes := #[⟨⟨∅, false, "go", ""⟩, .read⟩, ⟨⟨∅, false, "go", ""⟩, .write⟩,
    ⟨⟨∅, false, "stop", ""⟩, .read⟩]
  edges := #[[⟨⟨2⟩, .zero⟩, ⟨⟨1⟩, .zero⟩], [⟨⟨2⟩, .zero⟩], [⟨⟨2⟩, .zero⟩]]
  initial := (∅ : SortedSet NodeId).insert ⟨0⟩
  size_edges := rfl
  total := by simp
  inside := by simp
  initial_nonempty := toList_insert_first
  initial_inside := by decide

namespace Checker

theorem check_always_shortest_detour :
    ((small .detour .breadthFirst).check [always .all (.atom (.inState "go"))]).1.result =
      .error (.error (.unsatisfied 0 (always .all (.atom (.inState "go")))
        ⟨.unsatisfied (.atom (.inState "go")) ⟨2⟩, [⟨0⟩, ⟨2⟩]⟩)) ∧
    Kripke.detour.IsShortest (.atom (.inState "go")) [⟨0⟩, ⟨2⟩] := by
  have hresult : ((small .detour .breadthFirst).check
      [always .all (.atom (.inState "go"))]).1.result =
      .error (.error (.unsatisfied 0 (always .all (.atom (.inState "go")))
        ⟨.unsatisfied (.atom (.inState "go")) ⟨2⟩, [⟨0⟩, ⟨2⟩]⟩)) := by decide +kernel
  obtain ⟨x, hx, hshort⟩ := (check_always_shortest (small .detour .breadthFirst)
    (.atom (.inState "go")) rfl rfl rfl (fun _ node _ => ⟨_, rfl⟩) (by decide)).2.resolve_left
    (by rw [hresult]; simp)
  cases hresult.symm.trans hx
  exact ⟨hresult, hshort⟩

/-- A part that is not looked at may be malformed. Then the requirement is refused, though the rest
holds everywhere. -/
theorem check_always_malformed :
    let c := small .loop .breadthFirst
    let p := Formula.or (.not .falsum) (.atom (.compare ⟨.var "x", .lt, .lit (.str "s")⟩))
    p.isState = true ∧ p.IsValuedOn c.graph ∧
    (∀ i ∈ c.graph.initial, ∀ edges n, c.graph.Walk i edges n → p.Holds c.graph n) ∧
    (c.check [always .all p]).1.result ≠ .ok () := by
  intro c p
  exact ⟨rfl, fun _ _ _ => ⟨true, rfl⟩, fun _ _ _ _ _ => .inl not_holds_falsum, by decide +kernel⟩

end Checker

end CostCTL
