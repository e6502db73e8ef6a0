import CostCTL.Proofs.Contract
import CostCTL.Proofs.Expansion
import CostCTL.Proofs.Verdicts

/-!
# Histories

Every job stands at the end of a walk from an initial node. Its trail is the walk, its cost is what
the walk took, and its history is the part of the walk that its own path formula made: the nodes
since some position, each with the cost at its latest visit (`Context.Charted`). A formula that does
not go on from node to node has an empty history.

Contexts are extended, reset and restored by the obligations that are executed. An obligation that
keeps the node also keeps the history, so it may only be met where there is none
(`Obligation.Suits`). All operations of a run keep this of all its jobs and revisits, in whatever
way they end (`Run.Keeps`).
-/

namespace CostCTL

variable {g : Kripke} {settings : Settings} {r r₁ r₂ : Run}

/-! ### Contexts -/

theorem Kripke.Walk.getElem?_end {i j : NodeId} {edges : List Edge} (h : g.Walk i edges j) :
    (i :: edges.map (·.target))[edges.length]? = some j := by
  induction h with
  | nil => rfl
  | cons _ _ ih => exact ih

namespace Context

/-- The branch has `n` at position `k`, and not again until its last position. -/
def LatestAt (c : Context) (n : NodeId) (k : Nat) : Prop :=
  c.branch[k]? = some n ∧ ∀ k', k < k' → k' + 1 < c.branch.length → c.branch[k']? ≠ some n

/-- The history has the nodes of the walk from position `split` up to the last one, which it leaves
out, with the cost of the walk up to their latest visit. -/
def Recalls (c : Context) (edges : List Edge) (split : Nat) : Prop :=
  ∀ n x, c.history.get? n = some x ↔
    ∃ k, split ≤ k ∧ k < edges.length ∧ c.LatestAt n k ∧
      x = .total ((edges.take k).map (·.cost))

/-- The context is at the end of a walk from an initial node, and its history is a part of it. -/
def Charted (g : Kripke) (c : Context) : Prop :=
  ∃ start ∈ g.initial, ∃ edges, g.Walk start edges c.node ∧
    c.branch = start :: edges.map (·.target) ∧ c.cost = .total (edges.map (·.cost)) ∧
    ∃ split ≤ edges.length, c.Recalls edges split

section

variable {c d : Context} {m : Nat}

/-- With the edge the node that was last gets into the part that counts. -/
theorem latestAt_follow (hlen : c.branch.length = m + 1) (hnode : c.branch[m]? = some c.node)
    (history : History) (e : Edge) {n : NodeId} {k : Nat} :
    k ≤ m ∧ (c.follow history e).LatestAt n k ↔
      (k = m ∧ n = c.node) ∨ (k < m ∧ n ≠ c.node ∧ c.LatestAt n k) := by
  have hbranch : (c.follow history e).branch = c.branch ++ [e.target] := by simp [branch, follow]
  have hold {k : Nat} (hk : k ≤ m) : (c.follow history e).branch[k]? = c.branch[k]? := by
    rw [hbranch, List.getElem?_append_left (by omega)]
  have hlen' : (c.follow history e).branch.length = m + 2 := by
    rw [hbranch, List.length_append, hlen, List.length_singleton]
  rw [LatestAt, LatestAt, hlen, hlen']
  constructor
  · rintro ⟨hk, hget, hlast⟩
    rw [hold hk] at hget
    rcases Nat.lt_or_eq_of_le hk with hlt | rfl
    · refine .inr ⟨hlt, fun hn => ?_, hget, fun k' hk' hlt' => ?_⟩
      · exact hlast m hlt (by omega) (by rw [hold (Nat.le_refl m), hnode, hn])
      · rw [← hold (by omega)]
        exact hlast k' hk' (by omega)
    · exact .inl ⟨rfl, Option.some.inj (hget.symm.trans hnode)⟩
  · rintro (⟨rfl, rfl⟩ | ⟨hlt, hn, hget, hlast⟩)
    · refine ⟨Nat.le_refl k, by rw [hold (Nat.le_refl k), hnode], fun k' hk' hlt' => ?_⟩
      omega
    · refine ⟨Nat.le_of_lt hlt, by rw [hold (Nat.le_of_lt hlt), hget], fun k' hk' hlt' => ?_⟩
      rw [hold (by omega)]
      rcases Nat.lt_or_eq_of_le (show k' ≤ m by omega) with hlt' | rfl
      · exact hlast k' hk' (by omega)
      · rw [hnode]
        exact fun h => hn (Option.some.inj h).symm

namespace Charted

theorem start {i : NodeId} (hi : i ∈ g.initial) : (Context.start i).Charted g := by
  refine ⟨i, hi, [], .nil i, rfl, rfl, 0, Nat.le_refl 0, fun n x => ?_⟩
  constructor
  · intro h
    cases h
  · rintro ⟨k, -, hk, -⟩
    cases hk

/-- Without a history, wherever the walk is. -/
theorem of_walk {i : NodeId} {edges : List Edge} (hi : i ∈ g.initial)
    (hw : g.Walk i edges c.node) (hb : c.branch = i :: edges.map (·.target))
    (hcost : c.cost = .total (edges.map (·.cost))) (hh : c.history = ∅) : c.Charted g := by
  refine ⟨i, hi, edges, hw, hb, hcost, edges.length, Nat.le_refl _, fun n x => ?_⟩
  rw [hh]
  constructor
  · intro hget
    cases hget
  · rintro ⟨k, hle, hlt, -⟩
    exact absurd hlt (Nat.not_lt.mpr hle)

/-- A new path formula starts at the same node. -/
theorem reset (h : c.Charted g) (hn : d.node = c.node) (ht : d.trail = c.trail)
    (hc : d.cost = c.cost) (hh : d.history = ∅) : d.Charted g := by
  obtain ⟨i, hi, edges, hw, hb, hcost, -⟩ := h
  have hbranch : d.branch = c.branch := by rw [branch, branch, ht]
  exact of_walk hi (hn ▸ hw) (hbranch.trans hb) (hc.trans hcost) hh

/-- A walk goes on over an edge. -/
theorem follow_walk {i : NodeId} {edges : List Edge} (hw : g.Walk i edges c.node)
    (hb : c.branch = i :: edges.map (·.target)) (hcost : c.cost = .total (edges.map (·.cost)))
    (history : History) {e : Edge} (he : e ∈ g.successors c.node) :
    g.Walk i (edges ++ [e]) (c.follow history e).node ∧
      (c.follow history e).branch = i :: (edges ++ [e]).map (·.target) ∧
      (c.follow history e).cost = .total ((edges ++ [e]).map (·.cost)) := by
  refine ⟨hw.append he, ?_, ?_⟩
  · rw [List.map_append, ← List.cons_append, ← hb]
    simp [branch, Context.follow]
  · rw [List.map_append, List.map_singleton, Cost.total_append, ← hcost]
    rfl

/-- A new path formula starts at the end of an edge. -/
theorem step (h : c.Charted g) {e : Edge} (he : e ∈ g.successors c.node) :
    (c.follow ∅ e).Charted g := by
  obtain ⟨i, hi, edges, hw, hb, hcost, -⟩ := h
  obtain ⟨hw', hb', hcost'⟩ := follow_walk hw hb hcost ∅ he
  exact of_walk hi hw' hb' hcost' rfl

/-- The path formula takes an edge, and remembers the node that it leaves. -/
theorem follow (h : c.Charted g) {e : Edge} (he : e ∈ g.successors c.node) :
    (c.follow c.leave e).Charted g := by
  obtain ⟨i, hi, edges, hw, hb, hcost, split, hsplit, hrecalls⟩ := h
  obtain ⟨hw', hb', hcost'⟩ := follow_walk hw hb hcost c.leave he
  refine ⟨i, hi, edges ++ [e], hw', hb', hcost', split, ?_, fun n x => ?_⟩
  · rw [List.length_append]
    omega
  have hlatest {k : Nat} := latestAt_follow (c := c) (m := edges.length) (n := n) (k := k)
    (by rw [hb]; simp) (by rw [hb]; exact hw.getElem?_end) c.leave e
  have htake {k : Nat} (hk : k ≤ edges.length) : (edges ++ [e]).take k = edges.take k :=
    List.take_append_of_le_length hk
  have hget : (c.follow c.leave e).history.get? n =
      if n = c.node then some c.cost else c.history.get? n := by
    change (c.history.insert c.node c.cost).get? n = _
    simp only [SortedMap.get?_insert, beq_iff_eq]
  rw [hget, List.length_append, List.length_singleton]
  constructor
  · intro h
    split at h
    · next hn =>
      cases h
      obtain ⟨hle, hat⟩ := hlatest.mpr (.inl ⟨rfl, hn⟩)
      exact ⟨edges.length, hsplit, Nat.lt_succ_self _, hat,
        by rw [htake hle, List.take_length, hcost]⟩
    · next hn =>
      obtain ⟨k, hsk, hk, hat, rfl⟩ := (hrecalls n x).mp h
      obtain ⟨hle, hat⟩ := hlatest.mpr (.inr ⟨hk, hn, hat⟩)
      exact ⟨k, hsk, Nat.lt_succ_of_le hle, hat, by rw [htake hle]⟩
  · rintro ⟨k, hsk, hk, hat, rfl⟩
    have hle := Nat.le_of_lt_succ hk
    rw [htake hle]
    rcases hlatest.mp ⟨hle, hat⟩ with ⟨rfl, hn⟩ | ⟨hlt, hn, hat⟩
    · rw [if_pos hn, List.take_length, hcost]
    · rw [if_neg hn]
      exact (hrecalls n _).mpr ⟨k, hsk, hlt, hat, rfl⟩

end Charted

end

end Context

/-! ### Jobs and obligations -/

/-- Only a formula that goes on from node to node has a history. -/
def Job.Charted (g : Kripke) (j : Job) : Prop :=
  j.toContext.Charted g ∧ (j.formula.isOngoing = false → j.history = ∅)

/-- The obligation leads on with the history only for formulas that have one. -/
def Obligation.Suits (h : History) : Obligation → Prop
  | .here _ | .constrain .. => h = ∅
  | .successors f => f.isOngoing = true
  | .step _ => True
  | .revisit o _ => o.Suits h

theorem Formula.suits_unfoldTemporal {f : Formula} {p : Position} {o : Obligation} {h : History}
    (hh : f.isOngoing = false → h = ∅) (hu : f.unfoldTemporal p = .obligation o) : o.Suits h := by
  have hproceed {looped : Unfolding} {inside : Obligation} (hf : f.isOngoing = true)
      (hlooped : ∀ o, looped ≠ .obligation o) (hinside : inside.Suits h)
      (hu : proceed p f looped inside = .obligation o) : o.Suits h := by
    unfold proceed at hu
    split at hu
    · exact absurd hu (hlooped o)
    · split at hu <;> cases hu
      · exact hf
      · exact hinside
  cases f with
  | atom => cases hu
  | not | and | or | implies | within =>
    cases hu
    exact hh rfl
  | next q e =>
    cases q with
    | all =>
      cases hu
      trivial
    | some =>
      cases hu
      exact hh rfl
  | always q e | eventually q e | strongUntil q l r | weakUntil q l r =>
    cases q with
    | all =>
      refine hproceed rfl (fun _ => ?_) ?_ hu
      · simp
      · rfl
    | some =>
      cases hu
      exact hh rfl

theorem Job.Charted.suits {j : Job} {p : Position} {o : Obligation} (h : j.Charted g)
    (hu : j.formula.unfold p = .ok (.obligation o)) : o.Suits j.history :=
  Formula.suits_unfoldTemporal h.2 (Formula.unfoldTemporal_of_unfold hu).2

/-! ### Runs -/

/-- The link is to a revisit for the same session. -/
def Store.Links (s : Store) (session : Option SessionId) (link : Option RevisitId) : Prop :=
  ∀ i, link = some i → ∃ v, s.revisit? i = some v ∧ v.session = session

theorem Store.links_none (s : Store) (session : Option SessionId) : s.Links session none := by
  intro i hi
  cases hi

/-- The job was put on the worklist, or it is held. -/
def Run.Schedules (r : Run) (j : Job) : Prop :=
  ∃ i, .intern i j ∈ r.calls.toList ∨ r.store.job? i = some j

structure Run.Charted (g : Kripke) (r : Run) : Prop where
  job : ∀ j, r.Schedules j → j.Charted g ∧ r.store.Links j.session j.link
  context : ∀ i v, r.store.revisit? i = some v → v.toContext.Charted g ∧ v.resume.Suits v.history
  parent : ∀ i v, r.store.revisit? i = some v →
    r.store.Links v.session v.parent ∧ ∀ p, v.parent = some p → p.index < i.index

/-- Revisits are still there. -/
def Store.Remembers (s t : Store) : Prop := ∀ i v, s.revisit? i = some v → t.revisit? i = some v

theorem Store.Remembers.links {s t : Store} (h : s.Remembers t) {session : Option SessionId}
    {link : Option RevisitId} (hl : s.Links session link) : t.Links session link := by
  intro i hi
  obtain ⟨v, hv, hs⟩ := hl i hi
  exact ⟨v, h i v hv, hs⟩

/-- There are no new jobs, and the same revisits. -/
structure Run.Bypasses (r r' : Run) : Prop where
  job : ∀ j, r'.Schedules j → r.Schedules j
  revisit : ∀ i, r'.store.revisit? i = r.store.revisit? i

namespace Run

theorem Bypasses.refl (r : Run) : r.Bypasses r := ⟨fun _ => id, fun _ => rfl⟩

theorem Bypasses.trans (h : r.Bypasses r₁) (h' : r₁.Bypasses r₂) : r.Bypasses r₂ :=
  ⟨fun j hj => h.job j (h'.job j hj), fun i => (h'.revisit i).trans (h.revisit i)⟩

theorem Bypasses.of_revisit? (hj : r₁.store.jobs = r.store.jobs)
    (hv : ∀ i, r₁.store.revisit? i = r.store.revisit? i)
    (hc : ∀ i j, .intern i j ∈ r₁.calls.toList → .intern i j ∈ r.calls.toList) :
    r.Bypasses r₁ := by
  refine ⟨fun j hs => ?_, hv⟩
  obtain ⟨i, hi⟩ := hs
  refine ⟨i, hi.imp (hc i j) fun hi => ?_⟩
  rw [Store.job?, ← hj]
  exact hi

theorem Bypasses.of_store (hj : r₁.store.jobs = r.store.jobs)
    (hv : r₁.store.revisits = r.store.revisits)
    (hc : ∀ i j, .intern i j ∈ r₁.calls.toList → .intern i j ∈ r.calls.toList) : r.Bypasses r₁ :=
  .of_revisit? hj (fun i => by rw [Store.revisit?, Store.revisit?, Store.revisitRecord?_eq,
    Store.revisitRecord?_eq, hv]) hc

theorem Charted.of_bypasses (h : r.Charted g) (hb : r.Bypasses r₁) : r₁.Charted g := by
  have hlinks {session : Option SessionId} {link : Option RevisitId}
      (hl : r.store.Links session link) : r₁.store.Links session link :=
    Store.Remembers.links (fun i v hi => (hb.revisit i).trans hi) hl
  refine ⟨fun j hj => ?_, fun i v hi => ?_, fun i v hi => ?_⟩
  · exact (h.job j (hb.job j hj)).imp id hlinks
  · exact h.context i v ((hb.revisit i).symm.trans hi)
  · exact (h.parent i v ((hb.revisit i).symm.trans hi)).imp hlinks id

end Run

section Keeps

variable {ε α β : Type} {m : EStateM ε Run α} {Q : α → Run → Prop}

/-- From `r` the computation leaves jobs and revisits charted, in whatever way it ends, and what it
answers comes with `Q`. -/
def Run.Keeps (g : Kripke) (r : Run) (m : EStateM ε Run α) (Q : α → Run → Prop) : Prop :=
  r.Charted g → match m r with
    | .ok a r' => r'.Charted g ∧ r.store.Remembers r'.store ∧ Q a r'
    | .error _ r' => r'.Charted g

namespace Run.Keeps

theorem pure {a : α} (h : Q a r) : r.Keeps g (Pure.pure a : EStateM ε Run α) Q :=
  fun hr => ⟨hr, fun _ _ hi => hi, h⟩

theorem throw (e : ε) : r.Keeps g (MonadExcept.throw e : EStateM ε Run α) Q := id

theorem of_get {k : Run → EStateM ε Run α} (h : r.Keeps g (k r) Q) : r.Keeps g (get >>= k) Q := h

theorem bind {k : α → EStateM ε Run β} {Q' : β → Run → Prop} (hm : r.Keeps g m Q)
    (hk : ∀ a r', r'.Charted g → r.store.Remembers r'.store → Q a r' → r'.Keeps g (k a) Q') :
    r.Keeps g (m >>= k) Q' := by
  intro hr
  have hm := hm hr
  change match EStateM.bind m k r with | .ok a r' => _ | .error _ r' => _
  rw [EStateM.bind]
  cases hmr : m r with
  | error e r₁ =>
    rw [hmr] at hm
    exact hm
  | ok a r₁ =>
    rw [hmr] at hm
    obtain ⟨hr₁, hv₁, hQ⟩ := hm
    have hk := hk a r₁ hr₁ hv₁ hQ hr₁
    dsimp only
    cases hkr : k a r₁ with
    | error e r₂ =>
      rw [hkr] at hk
      exact hk
    | ok b r₂ =>
      rw [hkr] at hk
      exact ⟨hk.1, fun i v hi => hk.2.1 i v (hv₁ i v hi), hk.2.2⟩

/-- Over a list, with a precondition that stays. -/
theorem forM {γ : Type} {f : γ → EStateM ε Run PUnit} {l : List γ} {P : Run → Prop} (hP : P r)
    (hstays : ∀ r r' : Run, r.store.Remembers r'.store → P r → P r')
    (hf : ∀ a ∈ l, ∀ r : Run, P r → r.Keeps g (f a) fun _ _ => True) :
    r.Keeps g (l.forM f) fun _ _ => True := by
  induction l generalizing r with
  | nil => exact .pure trivial
  | cons a l ih =>
    refine (hf a List.mem_cons_self r hP).bind fun _ r₁ _ hv _ => ?_
    exact ih (hstays r r₁ hv hP) fun b hb => hf b (List.mem_cons_of_mem _ hb)

theorem ok {a : α} (h : r.Keeps g m Q) (hr : r.Charted g) (hm : m r = .ok a r₁) :
    r₁.Charted g ∧ r.store.Remembers r₁.store ∧ Q a r₁ := by
  have h := h hr
  rw [hm] at h
  exact h

theorem charted_ok {a : α} (h : r.Keeps g m Q) (hr : r.Charted g) (hm : m r = .ok a r₁) :
    r₁.Charted g := (h.ok hr hm).1

theorem charted_error {e : ε} (h : r.Keeps g m Q) (hr : r.Charted g) (hm : m r = .error e r₁) :
    r₁.Charted g := by
  have h := h hr
  rw [hm] at h
  exact h

end Run.Keeps

/-- Jobs and revisits are left alone. -/
def IsPassive (m : EStateM ε Run α) : Prop :=
  ∀ r : Run, match m r with
    | .ok _ r' | .error _ r' => r.Bypasses r'

namespace IsPassive

theorem pure (a : α) : IsPassive (Pure.pure a : EStateM ε Run α) := fun r => .refl r

theorem throw (e : ε) : IsPassive (MonadExcept.throw e : EStateM ε Run α) := fun r => .refl r

theorem of_modify {f : Run → Run} (hf : ∀ r : Run, r.Bypasses (f r)) :
    IsPassive (modify f : EStateM ε Run PUnit) := hf

theorem of_get {k : Run → EStateM ε Run α} (hk : ∀ r, IsPassive (k r)) : IsPassive (get >>= k) :=
  fun r => hk r r

theorem bind {k : α → EStateM ε Run β} (hm : IsPassive m) (hk : ∀ a, IsPassive (k a)) :
    IsPassive (m >>= k) := by
  intro r
  have hm := hm r
  change match EStateM.bind m k r with | .ok _ r' | .error _ r' => _
  rw [EStateM.bind]
  cases hmr : m r with
  | error e r₁ =>
    rw [hmr] at hm
    exact hm
  | ok a r₁ =>
    rw [hmr] at hm
    have hk := hk a r₁
    dsimp only
    cases hkr : k a r₁ <;> rw [hkr] at hk <;> exact hm.trans hk

theorem keeps (h : IsPassive m) (r : Run) : r.Keeps g m fun _ _ => True := by
  intro hr
  have h := h r
  cases hm : m r with
  | ok a r₁ =>
    rw [hm] at h
    exact ⟨hr.of_bypasses h, fun i v hi => (h.revisit i).trans hi, trivial⟩
  | error e r₁ =>
    rw [hm] at h
    exact hr.of_bypasses h

end IsPassive

end Keeps

/-- A table holds what it held before and what was put. -/
theorem Table.get?_of_put {α : Type} [DecidableEq α] [Hashable α] {t : Table α} {n : Nat} {v w : α}
    (h : (t.put v).2.get? n = some w) : t.get? n = some w ∨ w = v := by
  cases n with
  | zero => cases h
  | succ i =>
    rw [get?_succ, toList_put] at h
    rw [get?_succ]
    split at h
    · exact .inl h
    · rw [List.getElem?_append] at h
      split at h
      · exact .inl h
      · exact .inr (List.mem_singleton.mp (List.mem_of_getElem? h))

namespace RunM

variable {α : Type}

/-! ### Operations that pass jobs and revisits by -/

theorem isPassive_note (n : Notice) : IsPassive (note n) :=
  .of_modify fun _ => .of_store rfl rfl fun _ _ => id

theorem isPassive_expect (f : Fault) (a : Option α) : IsPassive (expect f a) := by
  cases a with
  | none => exact .throw _
  | some a => exact .pure a

theorem isPassive_ask (f : Fault) (query : Store → Option α) : IsPassive (ask f query) :=
  .of_get fun r => isPassive_expect f (query r.store)

theorem isPassive_update {op : Store → α × Store} {call : α → Call}
    (hop : ∀ s, (op s).2.jobs = s.jobs ∧ (op s).2.revisits = s.revisits)
    (hc : ∀ a i j, call a ≠ .intern i j) : IsPassive (update op call) := by
  intro r
  refine .of_store (hop r.store).1 (hop r.store).2 fun i j hi => ?_
  rw [Array.toList_push, List.mem_append, List.mem_singleton] at hi
  exact hi.resolve_right fun h => hc _ i j h.symm

theorem isPassive_update? {f : Fault} {op : Store → Option α × Store} {call : α → Call}
    (hop : ∀ s, (op s).2.jobs = s.jobs ∧ ∀ i, (op s).2.revisit? i = s.revisit? i)
    (hc : ∀ a i j, call a ≠ .intern i j) : IsPassive (update? f op call) := by
  intro r
  have hs := hop r.store
  rcases hr : op r.store with ⟨_ | a, s⟩ <;> rw [hr] at hs <;> simp only [update?, hr]
  · exact .of_revisit? hs.1 hs.2 fun _ _ => id
  · refine .of_revisit? hs.1 hs.2 fun i j hi => ?_
    rw [Array.toList_push, List.mem_append, List.mem_singleton] at hi
    exact hi.resolve_right fun h => hc _ i j h.symm

/-- An operation on one session. -/
theorem isPassive_modifySession {i : SessionId} {f : Fault} {op : Store → Option α × Store}
    {call : α → Call} {φ : Session → Session}
    (hop : ∀ s, (op s).2 = s ∨ (op s).2 = s.modifySession i φ)
    (hc : ∀ a i j, call a ≠ .intern i j) : IsPassive (update? f op call) := by
  refine isPassive_update? (fun s => ?_) hc
  rcases hop s with hs | hs <;> rw [hs] <;> exact ⟨rfl, fun _ => rfl⟩

theorem isPassive_takeWaiters (i : SessionId) : IsPassive (takeWaiters i) := by
  refine isPassive_modifySession (i := i) (φ := fun t => { t with waiters := .empty })
    (fun s => ?_) (by simp)
  unfold Store.takeWaiters?
  split
  · exact .inl rfl
  · exact .inr rfl

theorem isPassive_retain (i : SessionId) : IsPassive (retain i) := by
  refine isPassive_modifySession (i := i)
    (φ := fun t => { t with outstanding := t.outstanding + 1 }) (fun s => ?_) (by simp)
  unfold Store.retain?
  split
  · exact .inl rfl
  · exact .inr rfl

theorem isPassive_releaseOne (i : SessionId) : IsPassive (releaseOne i) := by
  refine isPassive_modifySession (i := i)
    (φ := fun t => { t with outstanding := t.outstanding - 1 }) (fun s => ?_) (by simp)
  unfold Store.release?
  split
  · exact .inl rfl
  · split
    · exact .inl rfl
    · exact .inr rfl

theorem isPassive_complete (i : SessionId) (result : SessionResult) :
    IsPassive (complete i result) := by
  refine .bind (isPassive_modifySession (i := i) (φ := fun t => { t with result })
    (fun s => ?_) (by simp)) fun first => ?_
  · unfold Store.complete?
    split
    · exact .inl rfl
    · split
      · exact .inr rfl
      · exact .inl rfl
  · cases first with
    | true => exact .of_modify fun _ => .of_store rfl rfl fun _ _ => id
    | false => exact isPassive_note _

theorem isPassive_recordExceeded (i : SessionId) (x : Counterexample) :
    IsPassive (recordExceeded i x) := by
  refine isPassive_modifySession (i := i)
    (φ := fun t => { t with exceeded := t.exceeded.or (some x) }) (fun s => ?_) (by simp)
  unfold Store.recordExceeded?
  split
  · exact .inl rfl
  · exact .inr rfl

theorem isPassive_markResumed (i : RevisitId) : IsPassive (markResumed i) := by
  refine isPassive_update? (fun s => ?_) (by simp)
  unfold Store.markResumed?
  split
  · exact ⟨rfl, fun _ => rfl⟩
  · next e he =>
    refine ⟨rfl, fun k => ?_⟩
    rw [Store.revisit?, Store.revisitRecord?_resume he]
    split
    · next hk => rw [hk, Store.revisit?, he]; rfl
    · rfl

theorem isPassive_openSession (k : SessionKey) (waiter : RevisitId) :
    IsPassive (openSession k waiter) :=
  isPassive_update (fun s => by rw [openSession_eq]; exact ⟨rfl, rfl⟩) (by simp)

theorem isPassive_sessionResult (i : SessionId) : IsPassive (sessionResult i) := isPassive_ask _ _

theorem isPassive_isSettled (session : Option SessionId) : IsPassive (isSettled session) := by
  cases session with
  | none => exact .pure _
  | some i => exact .bind (isPassive_sessionResult i) fun _ => .pure _

theorem isPassive_ofEval (e : Except EvalError α) : IsPassive (ofEval e) := by
  cases e with
  | ok a => exact .pure a
  | error e => cases e <;> exact .throw _

theorem isPassive_visit (k : VisitKey) : IsPassive (visit k) :=
  isPassive_update (fun _ => ⟨rfl, rfl⟩) (by simp)

theorem isPassive_recordDecomposed : IsPassive recordDecomposed :=
  .of_modify fun _ => .of_store rfl rfl fun _ _ => id

theorem isPassive_nextResolved : IsPassive nextResolved := by
  intro r
  cases h : r.resolved.popFront? with
  | none => rw [nextResolved, get_bind, h]; exact .refl r
  | some next => rw [nextResolved, get_bind, h]; exact .of_store rfl rfl fun _ _ => id

theorem isPassive_nextPending (limit : Option Nat) : IsPassive (nextPending limit) := by
  refine .of_get fun r => ?_
  split
  · exact .bind (.of_modify fun r => .of_store rfl rfl fun i j hi => by simpa [Run.call] using hi)
      fun _ => .pure _
  · refine .bind (.of_modify fun _ => .of_store rfl rfl fun _ _ => id) fun _ => ?_
    refine isPassive_update (fun s => ?_) (by simp)
    unfold Store.nextPending
    split <;> exact ⟨rfl, rfl⟩

theorem isPassive_reportProgress (interval : Nat) : IsPassive (reportProgress interval) := by
  refine .bind (.of_modify fun _ => .of_store rfl rfl fun _ _ => id) fun _ => .of_get fun r => ?_
  split
  · exact isPassive_note _
  · exact .pure _

theorem isPassive_fail (session : Option SessionId) (x : Counterexample) :
    IsPassive (fail session x) := by
  cases session with
  | none => exact .throw _
  | some i =>
    rw [fail]
    split
    · exact .bind (isPassive_note _) fun _ => isPassive_recordExceeded i x
    · exact .bind (isPassive_note _) fun _ => isPassive_complete i _

theorem isPassive_release (session : Option SessionId) : IsPassive (release session) := by
  cases session with
  | none => exact .pure _
  | some i =>
    refine .bind (isPassive_releaseOne i) fun last => ?_
    cases last with
    | false => exact .pure _
    | true =>
      refine .bind (isPassive_isSettled (some i)) fun settled => ?_
      cases settled with
      | true => exact .pure _
      | false =>
        refine .bind (isPassive_ask _ _) fun memory => ?_
        cases memory with
        | none => exact .bind (isPassive_note _) fun _ => isPassive_complete i _
        | some x => exact .bind (isPassive_note _) fun _ => isPassive_complete i _

/-! ### Jobs and revisits that are added -/

theorem keeps_expect (f : Fault) (answer : Option α) :
    r.Keeps g (expect f answer) fun a r' => r' = r ∧ answer = some a := by
  cases answer with
  | none => exact .throw _
  | some a => exact .pure ⟨rfl, rfl⟩

theorem keeps_ask (f : Fault) (query : Store → Option α) :
    r.Keeps g (ask f query) fun a r' => r' = r ∧ query r.store = some a :=
  .of_get (keeps_expect f (query r.store))

theorem keeps_isSettled (session : Option SessionId) :
    r.Keeps g (isSettled session) fun _ r' => r' = r := by
  cases session with
  | none => exact .pure rfl
  | some i => exact (keeps_ask _ _).bind fun _ _ _ _ h => .pure h.1

theorem keeps_ofEval (e : Except EvalError α) : r.Keeps g (ofEval e) fun a _ => e = .ok a := by
  cases e with
  | ok a => exact .pure rfl
  | error e => cases e <;> exact .throw _

/-- A revisit may be added for work that is charted. -/
theorem keeps_addRevisit {v : Revisit} (hc : v.toContext.Charted g) (ho : v.resume.Suits v.history)
    (hl : r.store.Links v.session v.parent) :
    r.Keeps g (addRevisit v) fun i r' => r'.store.revisit? i = some v := by
  intro hr
  have hiff (i : RevisitId) (w : Revisit) :
      ({ r.store with revisits := r.store.revisits.push ⟨v, false⟩ } : Store).revisit? i = some w ↔
        r.store.revisit? i = some w ∨ i = ⟨r.store.revisits.size + 1⟩ ∧ w = v := by
    simp only [Store.revisit?, Option.map_eq_some_iff, Store.revisitRecord?_push]
    constructor
    · rintro ⟨e, he | ⟨rfl, rfl⟩, rfl⟩
      · exact .inl ⟨e, he, rfl⟩
      · exact .inr ⟨rfl, rfl⟩
    · rintro (⟨e, he, rfl⟩ | ⟨rfl, rfl⟩)
      · exact ⟨e, .inl he, rfl⟩
      · exact ⟨_, .inr ⟨rfl, rfl⟩, rfl⟩
  have hlt {i : RevisitId} {w : Revisit} (hi : r.store.revisit? i = some w) :
      i.index < r.store.revisits.size + 1 := by
    obtain ⟨e, he, -⟩ := Option.map_eq_some_iff.mp hi
    rw [Store.revisitRecord?_eq] at he
    exact Nat.lt_succ_of_le (Numbered.le_of_get? he)
  have hremembers : r.store.Remembers
      { r.store with revisits := r.store.revisits.push ⟨v, false⟩ } :=
    fun i w hi => (hiff i w).mpr (.inl hi)
  refine ⟨⟨fun j hj => ?_, fun i w hi => ?_, fun i w hi => ?_⟩, hremembers,
    (hiff _ v).mpr (.inr ⟨rfl, rfl⟩)⟩
  · obtain ⟨i, hi⟩ := hj
    rw [Array.toList_push, List.mem_append, List.mem_singleton] at hi
    have hj : r.Schedules j := ⟨i, hi.imp_left (·.resolve_right fun h => by cases h)⟩
    exact (hr.job j hj).imp id hremembers.links
  · rcases (hiff i w).mp hi with hi | ⟨rfl, rfl⟩
    · exact hr.context i w hi
    · exact ⟨hc, ho⟩
  · rcases (hiff i w).mp hi with hi | ⟨rfl, rfl⟩
    · exact (hr.parent i w hi).imp hremembers.links id
    · refine ⟨hremembers.links hl, fun p hp => ?_⟩
      obtain ⟨u, hu, -⟩ := hl p hp
      exact hlt hu

theorem keeps_spawn {j : Job} (hj : j.Charted g) (hl : r.store.Links j.session j.link) :
    r.Keeps g (spawn j) fun _ _ => True := by
  have henqueue (r : Run) (hl : r.store.Links j.session j.link) :
      r.Keeps g (enqueue j) fun _ _ => True := by
    have hpush (i : JobId) : IsPassive (modify fun r : Run => { r with
        store := r.store.enqueue i } : RunM PUnit) :=
      .of_modify fun _ => .of_store rfl rfl fun _ _ => id
    refine .bind (Q := fun _ _ => True) (fun hr => ?_) fun i r₁ _ _ _ => (hpush i).keeps r₁
    refine ⟨⟨fun k hk => ?_, hr.context, hr.parent⟩, fun _ _ => id, trivial⟩
    obtain ⟨i, hi⟩ := hk
    rw [Array.toList_push, List.mem_append, List.mem_singleton] at hi
    have hk : r.Schedules k ∨ k = j := by
      rcases hi with (hi | hi) | hi
      · exact .inl ⟨i, .inl hi⟩
      · cases hi
        exact .inr rfl
      · exact (Table.get?_of_put hi).imp_left fun hi => ⟨i, .inr hi⟩
    rcases hk with hk | rfl
    · exact hr.job k hk
    · exact ⟨hj, hl⟩
  unfold spawn
  cases hs : j.session with
  | none => exact henqueue r hl
  | some i =>
    exact ((isPassive_retain i).keeps r).bind fun _ r₁ _ hv _ => henqueue r₁ (hv.links hl)

/-! ### Turns -/

section

variable {c : Context} {link : Option RevisitId}

theorem keeps_fanOut {f : Formula} {history : History} (hl : r.store.Links c.session link)
    (hj : ∀ e ∈ g.successors c.node, Job.Charted g ⟨c.follow history e, f, link⟩) :
    r.Keeps g (fanOut g c link history f) fun _ _ => True := by
  refine (keeps_expect _ _).bind fun out r₁ _ hv hout => ?_
  have hmem (e : Edge) (he : e ∈ out) : e ∈ g.successors c.node := by
    rw [Kripke.successors, hout.2]
    exact he
  exact (Run.Keeps.forM (P := fun r => r.store.Links c.session link) (hv.links hl)
    (fun _ _ hv hl => hv.links hl) fun e he r hl => keeps_spawn (hj e (hmem e he)) hl).bind
    fun _ _ _ _ _ => .pure trivial

theorem keeps_react {act : RunM Progress} (hact : r.Keeps g act fun _ _ => True)
    (reaction : Reaction) : r.Keeps g (react c act reaction) fun _ _ => True := by
  cases reaction with
  | proceed => exact hact
  | met => exact .pure trivial
  | fail x => exact ((isPassive_fail _ x).keeps r).bind fun _ _ _ _ _ => .pure trivial

theorem keeps_reactTo {act : RunM Progress} {p : Precondition} (i : RevisitId)
    (hact : r.Keeps g act fun _ _ => True) (finding : Finding) :
    r.Keeps g (reactTo i c p act finding) fun _ _ => True := by
  refine (keeps_isSettled c.session).bind fun settled r₁ _ _ hr => ?_
  subst hr
  cases settled with
  | true => exact ((isPassive_note _).keeps r₁).bind fun _ _ _ _ _ => .pure trivial
  | false => exact keeps_react hact _

theorem keeps_askSession (i : RevisitId) {p : Precondition} (hc : c.Charted g) :
    r.Keeps g (askSession i c p) fun _ _ => True := by
  refine ((isPassive_openSession _ i).keeps r).bind fun opened r₁ _ _ _ => ?_
  have hresult (r : Run) : r.Keeps g (do
      return Finding.ofResult? (← sessionResult opened.1)) fun _ _ => True :=
    ((isPassive_sessionResult _).keeps r).bind fun _ _ _ _ _ => .pure trivial
  obtain ⟨session, created⟩ := opened
  cases created with
  | false => exact ((isPassive_note _).keeps r₁).bind fun _ r₂ _ _ _ => hresult r₂
  | true =>
    refine ((isPassive_note _).keeps r₁).bind fun _ r₂ _ _ _ => ?_
    exact (keeps_spawn ⟨hc.reset rfl rfl rfl rfl, fun _ => rfl⟩ (Store.links_none _ _)).bind
      fun _ r₃ _ _ _ => hresult r₃

/-- An obligation that suits the history is executed in a context that is charted. -/
theorem keeps_execute (hc : c.Charted g) (hl : r.store.Links c.session link) {o : Obligation}
    (ho : o.Suits c.history) : r.Keeps g (execute g c link o) fun _ _ => True := by
  have hspawn {j : Job} {r : Run} (hj : j.Charted g) (hl : r.store.Links j.session j.link) :
      r.Keeps g (do spawn j; return Progress.waiting) fun _ _ => True :=
    (keeps_spawn hj hl).bind fun _ _ _ _ _ => .pure trivial
  induction o generalizing r with
  | here f => exact hspawn ⟨hc, fun _ => ho⟩ hl
  | successors f =>
    refine keeps_fanOut hl fun e he => ⟨hc.follow he, fun hf => ?_⟩
    rw [show f.isOngoing = true from ho] at hf
    cases hf
  | step f => exact keeps_fanOut hl fun e he => ⟨hc.step he, fun _ => rfl⟩
  | constrain f w =>
    rw [execute]
    split
    · exact hspawn ⟨hc.reset rfl rfl rfl ho, fun _ => ho⟩ hl
    · exact .throw _
  | revisit o p ih =>
    rw [execute]
    split
    · refine (keeps_expect _ _).bind fun node r₁ _ hv₁ _ => ?_
      refine (keeps_ofEval _).bind fun judgement r₂ _ hv₂ _ => ?_
      exact keeps_react (ih (hv₂.links (hv₁.links hl)) ho) _
    · refine (keeps_addRevisit hc ho hl).bind fun i r₁ _ hv₁ hi => ?_
      split
      · refine hspawn ⟨hc.reset rfl rfl rfl rfl, fun _ => rfl⟩ fun k hk => ?_
        cases hk
        exact ⟨_, hi, rfl⟩
      · refine (keeps_askSession i hc).bind fun finding r₂ _ hv₂ _ => ?_
        cases finding with
        | some finding => exact keeps_reactTo i (ih (hv₂.links (hv₁.links hl)) ho) finding
        | none =>
          cases c.session with
          | none => exact .pure trivial
          | some owner =>
            exact ((isPassive_retain owner).keeps r₂).bind fun _ _ _ _ _ => .pure trivial

end

/-- A revisit that is on record may be gone on with. -/
theorem keeps_execute_resume {i : RevisitId} {v : Revisit} (hr : r.Charted g)
    (hi : r.store.revisit? i = some v) :
    r.Keeps g (execute g v.toContext v.parent v.resume) fun _ _ => True :=
  keeps_execute (hr.context i v hi).1 (hr.parent i v hi).1 (hr.context i v hi).2

theorem keeps_resumeChain (n : Nat) (link : Option RevisitId) :
    r.Keeps g (resumeChain g n link) fun _ _ => True := by
  induction n generalizing r link with
  | zero =>
    cases link with
    | none => exact .pure trivial
    | some i => exact .throw _
  | succ n ih =>
    cases link with
    | none => exact .pure trivial
    | some i =>
      rw [resumeChain]
      refine ((isPassive_markResumed i).keeps r).bind fun first r₁ _ _ _ => ?_
      cases first with
      | false => exact (isPassive_note _).keeps r₁
      | true =>
        refine (keeps_ask _ _).bind fun v r₂ _ _ hv => ?_
        obtain ⟨rfl, hi⟩ := hv
        refine (keeps_isSettled _).bind fun settled r₃ _ _ h₃ => ?_
        subst h₃
        cases settled with
        | true => exact .pure trivial
        | false =>
          refine ((isPassive_note _).keeps r₃).bind fun _ r₄ hr₄ hv₄ _ => ?_
          refine (keeps_execute_resume hr₄ (hv₄ i v hi)).bind fun progress r₅ _ _ _ => ?_
          split
          · exact ih v.parent
          · exact .pure trivial

theorem keeps_carryOut {act : RunM Progress} (link : Option RevisitId)
    (hact : r.Keeps g act fun _ _ => True) : r.Keeps g (carryOut g link act) fun _ _ => True := by
  refine hact.bind fun progress r₁ _ _ _ => ?_
  split
  · exact keeps_resumeChain _ link
  · exact .pure trivial

theorem keeps_process {j : Job} (hj : j.Charted g) (hl : r.store.Links j.session j.link) :
    r.Keeps g (process g j) fun _ _ => True := by
  have hrelease {act : RunM Unit} {r : Run} (hact : r.Keeps g act fun _ _ => True) :
      r.Keeps g (do act; release j.session) fun _ _ => True :=
    hact.bind fun _ r' _ _ _ => (isPassive_release j.session).keeps r'
  rw [process]
  refine (keeps_isSettled _).bind fun settled r₁ _ _ h₁ => ?_
  subst h₁
  cases settled with
  | true => exact hrelease ((isPassive_note _).keeps r₁)
  | false =>
    refine ((isPassive_visit _).keeps r₁).bind fun seen r₂ _ hv₂ _ => ?_
    cases seen with
    | true => exact hrelease ((isPassive_note _).keeps r₂)
    | false =>
      refine (isPassive_recordDecomposed.keeps r₂).bind fun _ r₃ _ hv₃ _ => ?_
      refine (keeps_expect _ _).bind fun node r₄ _ hv₄ _ => ?_
      refine ((isPassive_note _).keeps r₄).bind fun _ r₅ _ hv₅ _ => ?_
      refine (keeps_ofEval _).bind fun u r₆ _ hv₆ hu => ?_
      cases u with
      | pass => exact hrelease (keeps_resumeChain _ _)
      | fail v => exact hrelease ((isPassive_fail _ _).keeps r₆)
      | obligation o =>
        refine hrelease (keeps_carryOut _ (keeps_execute hj.1 ?_ (hj.suits hu)))
        exact hv₆.links (hv₅.links (hv₄.links (hv₃.links (hv₂.links hl))))

theorem keeps_tell (result : SessionResult) (i : RevisitId) :
    r.Keeps g (tell g result i) fun _ _ => True := by
  refine (keeps_ask _ _).bind fun v r₁ hr₁ _ hv => ?_
  obtain ⟨rfl, hi⟩ := hv
  cases Finding.ofResult? result with
  | none => exact (isPassive_release v.session).keeps r₁
  | some finding =>
    refine (keeps_carryOut _ (keeps_reactTo i (keeps_execute_resume hr₁ hi) finding)).bind ?_
    exact fun _ r₂ _ _ _ => (isPassive_release v.session).keeps r₂

theorem keeps_turn (settings : Settings) : r.Keeps g (turn g settings) fun _ _ => True := by
  refine (isPassive_nextResolved.keeps r).bind fun next r₁ _ _ _ => ?_
  cases next with
  | some i =>
    refine .bind (Q := fun _ _ => True) ?_ fun _ _ _ _ _ => .pure trivial
    refine ((isPassive_sessionResult i).keeps r₁).bind fun result r₂ _ _ _ => ?_
    refine ((isPassive_takeWaiters i).keeps r₂).bind fun waiters r₃ _ _ _ => ?_
    exact .forM (P := fun _ => True) trivial (fun _ _ _ => id) fun w _ _ _ => keeps_tell result w
  | none =>
    refine ((isPassive_nextPending _).keeps r₁).bind fun next r₂ _ _ _ => ?_
    cases next with
    | none => exact .pure trivial
    | some i =>
      refine (keeps_ask _ _).bind fun j r₃ hr₃ _ hj => ?_
      obtain ⟨rfl, hi⟩ := hj
      obtain ⟨hj, hl⟩ := hr₃.job j ⟨i, .inr hi⟩
      refine (keeps_process hj hl).bind fun _ r₄ _ _ _ => ?_
      exact ((isPassive_reportProgress _).keeps r₄).bind fun _ _ _ _ _ => .pure trivial

theorem keeps_turns (settings : Settings) (n : Nat) :
    r.Keeps g (turns g settings n) fun _ _ => True := by
  induction n generalizing r with
  | zero => exact .throw _
  | succ n ih =>
    refine (keeps_turn settings).bind fun b r₁ _ _ _ => ?_
    cases b with
    | true => exact ih
    | false => exact .pure trivial

theorem keeps_seed (f : Formula) : r.Keeps g (seed g f) fun _ _ => True := by
  have hcount : IsPassive (modify fun r : Run => { r with processed := 0 } : RunM PUnit) :=
    .of_modify fun _ => .of_store rfl rfl fun _ _ => id
  refine .bind (Q := fun _ _ => True) ?_ fun _ r₁ _ _ _ => hcount.keeps r₁
  exact .forM (P := fun _ => True) trivial (fun _ _ _ => id) fun i hi _ _ =>
    keeps_spawn ⟨.start hi, fun _ => rfl⟩ (Store.links_none _ _)

theorem keeps_search (settings : Settings) (f : Formula) :
    r.Keeps g (search g settings f) fun _ _ => True := by
  rw [search_eq]
  refine (keeps_seed f).bind fun _ r₁ _ _ _ => ?_
  refine (keeps_turns settings _).bind fun _ r₂ _ _ _ => .of_get ?_
  dsimp only
  split
  · exact .throw _
  · exact .pure trivial

end RunM

/-! ### Checks -/

theorem Run.bypasses_announce (r : Run) (g : Kripke) (index : Nat) (f : Formula) :
    r.Bypasses (r.announce g index f) := by
  unfold Run.announce
  dsimp only
  split <;> exact .of_store rfl rfl fun _ _ => id

theorem keeps_requirement (index : Nat) (f : Formula) :
    r.Keeps g (checkRequirement g settings index f) fun _ _ => True := by
  intro hr
  have hr' := hr.of_bypasses (r.bypasses_announce g index f)
  have hsearch := RunM.keeps_search settings f.universal hr'
  unfold checkRequirement
  cases hs : RunM.search g settings f.universal (r.announce g index f) with
  | ok a r₁ =>
    rw [hs] at hsearch
    refine ⟨hsearch.1, fun i v hi => hsearch.2.1 i v ?_, trivial⟩
    exact ((r.bypasses_announce g index f).revisit i).trans hi
  | error e r₁ =>
    rw [hs] at hsearch
    cases e with
    | refuted x => exact hsearch.of_bypasses (.of_store rfl rfl fun _ _ => id)
    | stop e => exact hsearch

theorem keeps_checkFrom (index : Nat) (es : List Formula) :
    r.Keeps g (checkFrom g settings index es) fun _ _ => True := by
  induction es generalizing r index with
  | nil => exact .pure trivial
  | cons f es ih => exact (keeps_requirement index f).bind fun _ _ _ _ _ => ih (index + 1)

theorem Run.charted_start (g : Kripke) (store : Store) : (Run.start store.reset).Charted g := by
  have hjob (i : JobId) : store.reset.job? i = none := by
    obtain ⟨_ | n⟩ := i <;> rfl
  have hrevisit (i : RevisitId) : store.reset.revisit? i = none := by
    obtain ⟨_ | n⟩ := i <;> rfl
  refine ⟨fun j hj => ?_, fun i v hi => ?_, fun i v hi => ?_⟩
  · obtain ⟨i, hi | hi⟩ := hj
    · cases List.mem_singleton.mp hi
    · cases (hjob i).symm.trans hi
  · cases (hrevisit i).symm.trans hi
  · cases (hrevisit i).symm.trans hi

theorem Run.Turns.charted {k : Nat} (h : Run.Turns g settings k r r₁) (hr : r.Charted g) :
    r₁.Charted g := by
  induction h with
  | zero => exact hr
  | succ first _ ih => exact ih ((RunM.keeps_turn settings).charted_ok hr first)

namespace Checker

theorem Reaches.charted {c : Checker} {spec : Specification} (h : c.Reaches spec r) :
    r.Charted c.graph := by
  have hstart := Run.charted_start c.graph c.store
  rcases h with ⟨index, k, f, r₀, r₁, -, hok, hseed, hturns⟩ | rfl
  · have h₀ := (keeps_checkFrom 0 _).charted_ok hstart hok
    have h₁ := h₀.of_bypasses (r₀.bypasses_announce c.graph index f)
    exact hturns.charted ((RunM.keeps_seed _).charted_ok h₁ hseed)
  · rw [final, checkAll_eq]
    cases hc : checkFrom c.graph c.settings 0 spec (.start c.store.reset) with
    | ok a r =>
      exact ((keeps_checkFrom 0 spec).charted_ok hstart hc).of_bypasses
        (.of_store rfl rfl fun _ _ => id)
    | error e r => exact (keeps_checkFrom 0 spec).charted_error hstart hc

/-- In every run that a check comes through, with either order, every job that was ever put on the
worklist is at the end of a walk from an initial node. The walk is the job's branch and its cost is
the job's cost. The job's history is exactly the part of the walk since some position, up to the
last one, with the cost at the latest visit of each node, and it is empty unless the job's formula
goes on from node to node. Revisits come after the one that they are linked to. -/
theorem charted_of_reaches (c : Checker) (spec : Specification) (r : Run)
    (h : c.Reaches spec r) :
    (∀ j, r.Schedules j →
      j.toContext.Charted c.graph ∧ (j.formula.isOngoing = false → j.history = ∅)) ∧
    ∀ i v p, r.store.revisit? i = some v → v.parent = some p → p.index < i.index :=
  ⟨fun j hj => (h.charted.job j hj).1, fun i v p hi hp => (h.charted.parent i v hi).2 p hp⟩

/-- The job that comes round the loop remembers that it has been at the node, at no cost. The first
operand that it requires is linked to the requirement of both. -/
theorem charted_of_reaches_loop :
    let e : Formula := .next .all (.not .falsum)
    let f : Formula := .always .all (.and e e)
    let j : Job := ⟨⟨⟨0⟩, (∅ : History).insert ⟨0⟩ .zero, [⟨0⟩, ⟨0⟩], .zero, ∅, none⟩, f, none⟩
    let r := (small .loop .depthFirst).final [f]
    r.Schedules j ∧ j.toContext.Charted .loop ∧
      ∃ i v p, r.store.revisit? i = some v ∧ v.parent = some p ∧ p.index < i.index := by
  intro e f j r
  have h := charted_of_reaches (small .loop .depthFirst) [f] r (.inr rfl)
  have hj : r.Schedules j := ⟨⟨7⟩, .inr (by decide +kernel)⟩
  have hv : (r.store.revisit? ⟨2⟩).map (·.parent) = some (some ⟨1⟩) := by decide +kernel
  obtain ⟨v, hv, hp⟩ := Option.map_eq_some_iff.mp hv
  exact ⟨hj, (h.1 j hj).1, ⟨2⟩, v, ⟨1⟩, hv, hp, h.2 ⟨2⟩ v ⟨1⟩ hv hp⟩

end Checker

end CostCTL
