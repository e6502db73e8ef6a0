import CostCTL.Proofs.Iteration
import Mathlib.Algebra.GroupWithZero.Nat

/-!
# Counterexamples are branches of the graph

Every context of a search stands at the end of a walk from an initial node, which its trail records
and whose edges its cost adds up (`Context.OnWalk`). A violation is found in a context, so the
counterexample that a check answers with is such a walk, and at its end there is what the violation
says (`Counterexample.Genuine`).
-/

namespace CostCTL

variable {g : Kripke} {s t : Search} {f : Formula}

/-- What several steps cost together: for each symbol the sum, or the largest amount if the sum is
larger. -/
def Cost.total (costs : List Cost) : Cost :=
  ⟨.saturate (costs.map (·.time.toNat)).sum, .saturate (costs.map (·.energy.toNat)).sum⟩

theorem Amount.plus_saturate (n : Nat) (a : Amount) :
    Amount.plus (.saturate n) a = .saturate (n + a.toNat) := by
  apply UInt64.toNat_inj.mp
  rw [Amount.plus, toNat_saturate, toNat_saturate, toNat_saturate]
  have := a.toNat_lt
  simp only [UInt64.size] at *
  omega

theorem Cost.total_append (costs : List Cost) (c : Cost) :
    Cost.total (costs ++ [c]) = Cost.total costs + c := by
  change _ = Cost.add _ _
  simp only [Cost.total, Cost.add, Amount.plus_saturate, List.map_append, List.map_cons,
    List.map_nil, List.sum_append, List.sum_singleton]

theorem Kripke.Walk.append {i j : NodeId} {edges : List Edge} {e : Edge} (h : g.Walk i edges j)
    (he : e ∈ g.successors j) : g.Walk i (edges ++ [e]) e.target := by
  induction h with
  | nil => exact .cons he (.nil _)
  | cons leaves _ ih => exact .cons leaves (ih he)

/-- A walk comes through its end. -/
theorem Kripke.Walk.end_mem {i j : NodeId} {edges : List Edge} (h : g.Walk i edges j) :
    j ∈ i :: edges.map (·.target) := by
  induction h with
  | nil => exact List.mem_cons_self
  | cons _ _ ih => exact List.mem_cons_of_mem _ ih

/-! ### Windows -/

namespace Formula

/-- The windows that occur in a formula. -/
def windows : Formula → List Window
  | atom _ => []
  | not f | always _ f | eventually _ f | next _ f => f.windows
  | and l r | or l r | implies l r | strongUntil _ l r | weakUntil _ l r => l.windows ++ r.windows
  | within f w => w :: f.windows

/-- The statement belongs to a window in the formula. -/
def Bounds (f : Formula) (s : Statement) : Prop := ∃ w ∈ f.windows, s ∈ w.toList

/-- The formula asks that something comes about on all paths. -/
def isEventuality : Formula → Bool
  | eventually .all _ | strongUntil .all _ _ => true
  | _ => false

theorem windows_operands {e : Formula} (h : e ∈ f.operands) : e.windows ⊆ f.windows := by
  cases f with
  | atom | within => cases h
  | not | always | eventually | next =>
    obtain rfl := List.mem_singleton.mp h
    exact List.Subset.refl _
  | and l r | or l r | implies l r | strongUntil q l r | weakUntil q l r =>
    simp only [operands, List.mem_cons, List.not_mem_nil, or_false] at h
    rcases h with rfl | rfl
    · exact List.subset_append_left _ _
    · exact List.subset_append_right _ _

theorem windows_universal (f : Formula) : f.universal.windows ⊆ f.windows := by
  induction f with
  | atom => exact List.Subset.refl _
  | not f ih => exact ih
  | within f w ih => exact List.cons_subset_cons w ih
  | and l r ihl ihr | or l r ihl ihr | implies l r ihl ihr =>
    exact List.append_subset.mpr ⟨List.Subset.trans ihl (List.subset_append_left _ _),
      List.Subset.trans ihr (List.subset_append_right _ _)⟩
  | always q f ih | eventually q f ih | next q f ih => cases q <;> exact ih
  | strongUntil q l r ihl ihr | weakUntil q l r ihl ihr =>
    have hl := List.Subset.trans ihl (List.subset_append_left l.windows r.windows)
    have hr := List.Subset.trans ihr (List.subset_append_right l.windows r.windows)
    cases q with
    | all => exact List.append_subset.mpr ⟨hl, hr⟩
    | some => exact List.append_subset.mpr ⟨hr, List.append_subset.mpr ⟨hl, hr⟩⟩

end Formula

theorem Window.mem_merge {v w u : Window} (h : v.merge w = .ok u) {x : Statement}
    (hx : x ∈ u.toList) : x ∈ v.toList ∨ x ∈ w.toList := by
  obtain ⟨rfl, -⟩ := merge_eq_ok_iff.mp h
  exact mem_union.mp hx

/-- The statements that may be met when a formula is checked within a window. -/
def Meets (root : Formula × Window) (x : Statement) : Prop := x ∈ root.2.toList ∨ root.1.Bounds x

theorem Formula.Part.meets {e : Formula} {w u : Window} (h : Part f w e u) {x : Statement}
    (hx : Meets (e, u) x) : Meets (f, w) x := by
  induction h with
  | self => exact hx
  | operand _ he ih => exact ih (hx.imp id fun ⟨v, hv, hxv⟩ => ⟨v, windows_operands he hv, hxv⟩)
  | negated _ ih =>
    exact ih (hx.imp id fun ⟨v, hv, hxv⟩ => ⟨v, List.subset_append_left _ _ hv, hxv⟩)
  | @inner e v u u' _ hm ih =>
    rcases hx with hx | ⟨v', hv', hxv⟩
    · rcases Window.mem_merge hm hx with hx | hx
      · exact ih (.inl hx)
      · exact ih (.inr ⟨v, List.mem_cons_self, hx⟩)
    · exact ih (.inr ⟨v', List.mem_cons_of_mem _ hv', hxv⟩)

/-- A statement decides for the window as it stands itself. -/
theorem Statement.eq_of_verdict {x y : Statement} {c : Cost} :
    (x.verdict c = .violated y → y = x) ∧ (x.verdict c = .notYet y → y = x) := by
  unfold Statement.verdict
  dsimp only
  constructor
  all_goals
    intro h
    split at h
    · cases h
    · split at h <;> (try split at h) <;> cases h <;> rfl

/-- The first violated statement decides. -/
theorem Window.verdictOf_eq_violated_iff {c : Cost} {x : Statement} {l : List Statement} :
    verdictOf c l = .violated x ↔ l.find? (fun y => y.verdict c = .violated y) = some x := by
  induction l with
  | nil => simp [verdictOf]
  | cons y l ih =>
    rw [verdictOf, List.find?_cons]
    cases hy : y.verdict c with
    | violated z =>
      obtain rfl := Statement.eq_of_verdict.1 hy
      simp
    | satisfied | notYet => cases hl : verdictOf c l <;> simp [hl, ← ih]

theorem Window.verdictOf_ne_violated_iff {c : Cost} {l : List Statement} :
    (∀ x, verdictOf c l ≠ .violated x) ↔ ∀ y ∈ l, ∀ z, y.verdict c ≠ .violated z := by
  simp only [ne_eq, verdictOf_eq_violated_iff]
  rw [← Option.eq_none_iff_forall_ne_some, List.find?_eq_none]
  refine forall₂_congr fun y _ => ?_
  rw [decide_eq_true_eq]
  exact ⟨fun h z hz => h (Statement.eq_of_verdict.1 hz ▸ hz), fun h => h y⟩

/-- Where nothing is violated, the first statement that is still open decides. -/
theorem Window.verdictOf_eq_notYet_iff {c : Cost} {x : Statement} {l : List Statement} :
    verdictOf c l = .notYet x ↔ (∀ y ∈ l, ∀ z, y.verdict c ≠ .violated z) ∧
      l.find? (fun y => y.verdict c = .notYet y) = some x := by
  induction l with
  | nil => simp [verdictOf]
  | cons y l ih =>
    rw [List.forall_mem_cons, ← verdictOf_ne_violated_iff, verdictOf, List.find?_cons]
    rw [← verdictOf_ne_violated_iff] at ih
    cases hy : y.verdict c with
    | violated z => simp
    | satisfied => cases hl : verdictOf c l <;> simp_all
    | notYet z =>
      obtain rfl := Statement.eq_of_verdict.2 hy
      cases hl : verdictOf c l <;> simp

theorem Window.verdictOf_violated {c : Cost} {l : List Statement} {x : Statement}
    (h : verdictOf c l = .violated x) : x ∈ l ∧ x.verdict c = .violated x := by
  rw [verdictOf_eq_violated_iff] at h
  exact ⟨List.mem_of_find?_eq_some h, by simpa using List.find?_some h⟩

theorem Window.verdictOf_notYet {c : Cost} {l : List Statement} {x : Statement}
    (h : verdictOf c l = .notYet x) : x ∈ l ∧ x.verdict c = .notYet x := by
  obtain ⟨-, h⟩ := verdictOf_eq_notYet_iff.mp h
  exact ⟨List.mem_of_find?_eq_some h, by simpa using List.find?_some h⟩

/-! ### Walks -/

/-- At the end of a walk of this cost along the branch there is what the violation says. -/
def Violation.Justified (g : Kripke) (supported : Statement → Prop) (branch : List NodeId)
    (cost : Cost) : Violation → Prop
  | .unsatisfied f i => f.isState = true ∧ ∃ node, g.node? i = some node ∧
    f.holdsAt node i = .ok false
  | .holds .. => True
  | .noWitness f i => f.isEventuality = true ∧ i ∈ branch.dropLast
  | .constraint x c _ => c = cost ∧ supported x ∧ x.verdict c = .violated x
  | .unreached x c _ => c = cost ∧ supported x ∧ x.verdict c = .notYet x

/-- The branch is a walk from an initial node to the node of the violation, and the violation is
there. -/
def Counterexample.Genuine (g : Kripke) (supported : Statement → Prop) (x : Counterexample) : Prop :=
  ∃ i ∈ g.initial, ∃ edges, g.Walk i edges x.violation.node ∧
    x.branch = i :: edges.map (·.target) ∧
    x.violation.Justified g supported x.branch (.total (edges.map (·.cost)))

theorem Counterexample.Genuine.imp {p q : Statement → Prop} {x : Counterexample}
    (h : x.Genuine g p) (hpq : ∀ y, p y → q y) : x.Genuine g q := by
  obtain ⟨i, hi, edges, hw, hb, hj⟩ := h
  refine ⟨i, hi, edges, hw, hb, ?_⟩
  revert hj
  cases x.violation with
  | unsatisfied | holds | noWitness => exact id
  | constraint | unreached => exact fun h => ⟨h.1, hpq _ h.2.1, h.2.2⟩

/-- The context is at the end of a walk from an initial node, and its history holds nodes that the
walk came through. -/
structure Context.OnWalk (g : Kripke) (c : Context) : Prop where
  walk : ∃ i ∈ g.initial, ∃ edges, g.Walk i edges c.node ∧ c.branch = i :: edges.map (·.target) ∧
    c.cost = .total (edges.map (·.cost))
  history : ∀ n, c.history.get? n ≠ none → n ∈ c.trail.tail

namespace Context.OnWalk

variable {c : Context}

/-- At the same node, with the same history or a new one. -/
theorem of_eq {d : Context} (h : c.OnWalk g) (hn : d.node = c.node) (ht : d.trail = c.trail)
    (hc : d.cost = c.cost) (hh : d.history = c.history ∨ d.history = ∅) : d.OnWalk g where
  walk := by
    obtain ⟨i, hi, edges, hw, hb, hcost⟩ := h.walk
    exact ⟨i, hi, edges, hn ▸ hw, by rw [branch, ht]; exact hb, hc.trans hcost⟩
  history n hget := by
    rw [ht]
    rcases hh with hh | hh
    · exact h.history n (hh ▸ hget)
    · rw [hh] at hget
      exact absurd rfl hget

theorem start {i : NodeId} (hi : i ∈ g.initial) : (Context.start i).OnWalk g :=
  ⟨⟨i, hi, [], .nil i, rfl, rfl⟩, fun _ h => absurd rfl h⟩

theorem follow (h : c.OnWalk g) {history : History} (hh : history = c.leave ∨ history = ∅)
    {e : Edge} (he : e ∈ g.successors c.node) : (c.follow history e).OnWalk g where
  walk := by
    obtain ⟨i, hi, edges, hw, hb, hcost⟩ := h.walk
    refine ⟨i, hi, edges ++ [e], hw.append he, ?_, ?_⟩
    · rw [List.map_append, ← List.cons_append, ← hb]
      simp [branch, Context.follow]
    · rw [List.map_append, List.map_singleton, Cost.total_append, ← hcost]
      rfl
  history n hget := by
    change n ∈ c.trail
    rcases hh with rfl | rfl
    · rw [Context.follow, leave, SortedMap.get?_insert] at hget
      split at hget
      · next hn =>
        obtain rfl : n = c.node := by simpa using hn
        obtain ⟨i, -, edges, hw, hb, -⟩ := h.walk
        have hmem := hw.end_mem
        rw [← hb] at hmem
        exact List.mem_reverse.mp hmem
      · exact List.mem_of_mem_tail (h.history n hget)
    · exact absurd rfl hget

end Context.OnWalk

/-! ### Violations -/

theorem Formula.judge_eq {p : Position} {judgement : Judgement}
    (h : f.judge p = .ok judgement) :
    judgement = .holds ∨
    (judgement = .fails (.unsatisfied f p.id) ∧ f.holdsAt p.node p.id = .ok false) ∨
    (∃ x, judgement = .early (.unreached x p.cost p.id) ∧ p.window.verdict p.cost = .notYet x) ∨
    ∃ x, judgement = .late (.constraint x p.cost p.id) ∧ p.window.verdict p.cost = .violated x := by
  unfold Formula.judge at h
  split at h
  · next x hx =>
    cases h
    exact .inr (.inr (.inr ⟨x, rfl, hx⟩))
  · next x hx =>
    cases h
    exact .inr (.inr (.inl ⟨x, rfl, hx⟩))
  · obtain ⟨b, hb, hj⟩ := exists_of_bind_eq_ok h
    cases b with
    | true =>
      cases hj
      exact .inl rfl
    | false =>
      cases hj
      exact .inr (.inl ⟨rfl, hb⟩)

/-- A path operator fails where it stands only if it has closed a cycle. -/
theorem Formula.unfoldTemporal_eq_fail {p : Position} {v : Violation}
    (h : f.unfoldTemporal p = .fail v) :
    v = .noWitness f p.id ∧ p.inCycle = true ∧ f.isEventuality = true := by
  have hproceed {looped : Unfolding} {inside : Obligation}
      (h : proceed p f looped inside = .fail v) : p.inCycle = true ∧ looped = .fail v := by
    unfold proceed at h
    split at h
    · next hc => exact ⟨hc, h⟩
    · split at h <;> cases h
  cases f with
  | atom | not | and | or | implies | within => cases h
  | next q e => cases q <;> cases h
  | always q e | weakUntil q l r =>
    cases q with
    | all => cases (hproceed h).2
    | some => cases h
  | eventually q e | strongUntil q l r =>
    cases q with
    | all =>
      obtain ⟨hc, hv⟩ := hproceed h
      cases hv
      exact ⟨rfl, hc, rfl⟩
    | some => cases h

namespace Context.OnWalk

variable {c : Context}

theorem genuine (h : c.OnWalk g) {supported : Statement → Prop} {v : Violation}
    (hn : v.node = c.node) (hj : v.Justified g supported c.branch c.cost) :
    (c.counterexample v).Genuine g supported := by
  obtain ⟨i, hi, edges, hw, hb, hcost⟩ := h.walk
  exact ⟨i, hi, edges, (by rw [counterexample, hn]; exact hw), hb, hcost ▸ hj⟩

/-- What a state formula finds at a node. -/
theorem genuine_judge (h : c.OnWalk g) {node : Node} {judgement : Judgement}
    (hs : f.isState = true) (hn : g.node? c.node = some node)
    (hj : f.judge (c.position node) = .ok judgement) {v : Violation}
    (hv : judgement = .fails v ∨ judgement = .early v ∨ judgement = .late v) :
    (c.counterexample v).Genuine g (· ∈ c.window.toList) := by
  rcases Formula.judge_eq hj with rfl | ⟨rfl, hf⟩ | ⟨x, rfl, hx⟩ | ⟨x, rfl, hx⟩
  · simp at hv
  · obtain rfl : v = .unsatisfied f c.node := by simpa [Context.position, eq_comm] using hv
    exact h.genuine rfl ⟨hs, node, hn, hf⟩
  · obtain rfl : v = .unreached x c.cost c.node := by simpa [Context.position, eq_comm] using hv
    exact h.genuine rfl ⟨rfl, Window.verdictOf_notYet hx⟩
  · obtain rfl : v = .constraint x c.cost c.node := by simpa [Context.position, eq_comm] using hv
    exact h.genuine rfl ⟨rfl, Window.verdictOf_violated hx⟩

/-- What a formula finds at a node when it is unfolded. -/
theorem genuine_unfold {j : Job} (h : j.toContext.OnWalk g) {node : Node} {v : Violation}
    (hn : g.node? j.node = some node)
    (hu : j.formula.unfold (j.position node) = .ok (.fail v)) :
    (j.counterexample v).Genuine g (· ∈ j.window.toList) := by
  unfold Formula.unfold at hu
  split at hu
  · next hs =>
    obtain ⟨judgement, hj, hv⟩ := Formula.exists_of_bind_eq_ok hu
    refine h.genuine_judge hs hn hj ?_
    cases judgement <;> cases hv <;> simp
  · obtain ⟨rfl, hc, he⟩ := Formula.unfoldTemporal_eq_fail (Except.ok.inj hu)
    refine h.genuine rfl ⟨he, ?_⟩
    have hseen : j.history.get? j.node ≠ none := by
      intro hnone
      have hc : closesCycle j.history j.node j.cost j.window = true := hc
      rw [closesCycle, hnone] at hc
      cases hc
    have hmem := h.history j.node hseen
    rw [branch, List.dropLast_reverse]
    exact List.mem_reverse.mpr hmem

end Context.OnWalk

/-! ### All counterexamples of a search -/

/-- Work stands at the end of a walk, and the counterexamples found in it are genuine. -/
def Search.Traced (g : Kripke) (f : Formula) (s : Search) : Work → Prop
  | .job j => j.toContext.OnWalk g
  | .todo c _ _ => c.OnWalk g
  | .done .. => True
  | .fail session x => ∃ root, s.scope? f session = some root ∧ x.Genuine g (Meets root)
  | .outcome i (.fail x) | .outcome i (.exceeded x) =>
    ∃ root, s.scope? f (some i) = some root ∧ x.Genuine g (Meets root)
  | .outcome _ .pass | .outcome _ .pending => True

namespace Search

/-- A reaction fails with a counterexample of its finding, or because a negated formula holds. -/
theorem Traced.react {c : Context} {link : Option RevisitId} {o : Obligation} {p : Precondition}
    (h : s.Traced g f (.todo c link (.revisit o p)))
    (hp : s.InScope f (.todo c link (.revisit o p))) {finding : Finding}
    (hx : ∀ x, finding = .fails x ∨ finding = .budget x →
      x.Genuine g (Meets (p.formula, c.window))) :
    s.Traced g f ((p.react c finding).work c link o) := by
  obtain ⟨-, root, hroot, -, hpart, -⟩ := hp
  have hfail {x : Counterexample} (hg : x.Genuine g (Meets (p.formula, c.window))) :
      s.Traced g f (.fail c.session x) := ⟨root, hroot, hg.imp fun _ => hpart.meets⟩
  cases finding with
  | holds =>
    unfold Precondition.react
    cases p.kind with
    | required => exact h
    | skip => trivial
    | ignored => exact hfail (h.genuine rfl trivial)
  | fails x =>
    unfold Precondition.react
    cases p.kind with
    | required => exact hfail (hx x (.inl rfl))
    | skip => exact h
    | ignored => trivial
  | budget x => exact hfail (hx x (.inr rfl))

theorem traced_hands (g : Kripke) (base : Nat) (f : Formula) :
    Hands g base (InScope f) (Traced g f) where
  mono := by
    intro s t x h hx
    cases x with
    | job | todo | done => exact hx
    | fail session x =>
      obtain ⟨root, hroot, hg⟩ := hx
      exact ⟨root, h.scope? hroot, hg⟩
    | outcome i result =>
      cases result with
      | pass | pending => trivial
      | fail x | exceeded x =>
        obtain ⟨root, hroot, hg⟩ := hx
        exact ⟨root, h.scope? hroot, hg⟩
  unfold := by
    intro s j node u _ _ hp h hn hu
    cases u with
    | pass => trivial
    | fail v =>
      obtain ⟨-, root, hroot, -, hpart⟩ := hp
      exact ⟨root, hroot, (Context.OnWalk.genuine_unfold h hn hu).imp
        fun x hx => hpart.meets (.inl hx)⟩
    | obligation o => exact h
  spawn := by
    intro s c link o jobs _ _ _ h hj j hjm
    cases o with
    | here e =>
      cases hj
      obtain rfl := List.mem_singleton.mp hjm
      exact h
    | successors e =>
      cases hj
      obtain ⟨d, hd, rfl⟩ := List.mem_map.mp hjm
      exact Context.OnWalk.follow h (.inl rfl) hd
    | step e =>
      cases hj
      obtain ⟨d, hd, rfl⟩ := List.mem_map.mp hjm
      exact Context.OnWalk.follow h (.inr rfl) hd
    | constrain e v =>
      rw [Obligation.jobs?] at hj
      split at hj
      · cases hj
        obtain rfl := List.mem_singleton.mp hjm
        exact Context.OnWalk.of_eq h rfl rfl rfl (.inl rfl)
      · cases hj
    | revisit o p => cases hj
  judge := by
    intro s c link o p node judgement _ hp h hs hn hj
    refine h.react hp fun x hx => ?_
    have hwalk : c.OnWalk g := h
    cases judgement with
    | holds => simp [Finding.ofJudgement] at hx
    | fails v | early v | late v =>
      obtain rfl : x = c.counterexample v := by simpa [Finding.ofJudgement, eq_comm] using hx
      exact (hwalk.genuine_judge hs hn hj (by simp)).imp fun _ => .inl
  answer := by
    intro s c link o p i result finding _ hp h _ _ hkey _ _ hout hf _
    refine h.react hp fun x hx => ?_
    have hscope := scope?_of_key? (f := f) hkey
    cases result with
    | pending => cases hf
    | pass =>
      cases hf
      simp at hx
    | fail y | exceeded y =>
      cases hf
      obtain rfl : x = y := by simpa [eq_comm] using hx
      obtain ⟨root, hroot, hg⟩ := hout
      rw [hscope] at hroot
      cases hroot
      exact hg
  require := by
    intro s c link o p _ _ h _ _
    exact Context.OnWalk.of_eq h rfl rfl rfl (.inr rfl)
  inquire := by
    intro s c link o p _ _ h _ _ _
    exact Context.OnWalk.of_eq h rfl rfl rfl (.inr rfl)
  resume := by
    intro s c i e _ _ _ _ _ _ h _
    exact h
  exceed := by
    intro s i x _ _ h _
    exact h
  settle := by
    intro s i x _ _ h _ _
    exact h
  pass := by intros; trivial

end Search

theorem Course.traced {order : PendingOrder} {fs : List Formula} {past : Search}
    (h : Course g order fs past s) : s.All past.revisits.length (s.Traced g (current fs)) := by
  refine h.all (Q := fun f s => s.Traced g f) (fun f _ base => Search.traced_hands g base f.universal)
    (fun _ hc _ => hc.inScope) (fun f _ i hi s => Context.OnWalk.start hi) (fun f f' s i r hr => ?_)
    fun _ hc _ hs => hc.inScope.parked_of_idle hc.valid_accounts.1 hc.valid_accounts.2 hs
  cases r with
  | pass | pending => trivial
  | fail x | exceeded x => exact hr

/-- The counterexample that a check answers with is a branch of the graph from an initial node, and
the violation is found at its end: a state formula that is false there, an eventuality that comes to
a node of the branch again, or a statement of one of the requirement's windows that does not hold at
the cost of the branch. -/
theorem Checker.genuine_of_unsatisfied (c : Checker) (spec : Specification) (index : Nat)
    (f : Formula) (x : Counterexample) (hl : c.settings.popLimit = none)
    (h : (c.check spec).1.result = .error (.error (.unsatisfied index f x))) :
    spec[index]? = some f ∧ x.Genuine c.graph f.Bounds := by
  cases hv : spec.validate with
  | error fe =>
    unfold Checker.check at h
    rw [hv] at h
    cases fe <;> cases h
  | ok =>
    obtain ⟨k, f', hk, ⟨he, -⟩ | ⟨past, u, hu, ⟨y, he, hy⟩ | hhalts⟩⟩ :=
      exists_of_check_error hl hv h
    · cases he
    · cases he
      refine ⟨hk, ?_⟩
      cases hy with
      | refuted ht =>
        obtain ⟨root, hroot, hg⟩ := (hu.traced.head ht _ rfl).2
        cases hroot
        refine hg.imp fun z hz => ?_
        rcases hz with hz | ⟨w, hw, hz⟩
        · cases hz
        · exact ⟨w, Formula.windows_universal f hw, hz⟩
    · cases hhalts

theorem Checker.genuine_loop :
    (⟨.noWitness (.eventually .all .falsum) ⟨0⟩, [⟨0⟩, ⟨0⟩]⟩ : Counterexample).Genuine .loop
      (Formula.eventually .all .falsum).Bounds :=
  (Checker.genuine_of_unsatisfied (.small .loop .depthFirst) [.eventually .all .falsum] 0 _ _ rfl
    (by decide +kernel)).2

end CostCTL
