import CostCTL.Proofs.Reach
import Mathlib.Algebra.BigOperators.Group.Finset.Basic
import Mathlib.Algebra.Order.BigOperators.Group.Finset
import Mathlib.Data.Fintype.Card
import Mathlib.Data.Fintype.Prod
import Mathlib.Tactic.Ring

/-!
# A potential of searches

A potential that no move raises, and that every turn lowers (`Search.potential`). Jobs with one link
and one session have finitely many keys, each of which is visited once. A visit is worth the work it
may lead to: jobs at all successors, and one revisit that requires a lower formula, with all the
visits linked to it. There are finitely many keys of sessions.
-/

namespace CostCTL

open Formula

variable {g : Kripke} {f : Formula} {s t : Search} {m : Nat}

/-! ### Keys -/

/-- The costs of less than `n` in time and in energy. -/
@[irreducible] def costs (n : Nat) : Finset Cost :=
  (Finset.range n ×ˢ Finset.range n).image fun c => ⟨.ofNat c.1, .ofNat c.2⟩

theorem card_costs_le (n : Nat) : (costs n).card ≤ n * n := by
  rw [costs]
  refine Nat.le_trans Finset.card_image_le ?_
  rw [Finset.card_product, Finset.card_range]

theorem mem_costs {n : Nat} {c : Cost} (ht : c.time.toNat < n) (he : c.energy.toNat < n) :
    c ∈ costs n := by
  rw [costs]
  refine Finset.mem_image.mpr ⟨(c.time.toNat, c.energy.toNat), ?_, ?_⟩
  · rw [Finset.mem_product, Finset.mem_range, Finset.mem_range]
    exact ⟨ht, he⟩
  · rw [UInt64.ofNat_toNat, UInt64.ofNat_toNat]

/-- The keys of jobs on parts of a formula, but for their link and session. -/
def spots (g : Kripke) (f : Formula) : Finset VisitKey :=
  ((Finset.univ : Finset (Fin g.size)) ×ˢ (f.parts ∅).toFinset ×ˢ (Finset.univ : Finset Bool) ×ˢ
    costs UInt64.size).image fun (i, (e, w), b, c) => ⟨⟨i⟩, e, b, w, c, none, none⟩

theorem card_spots_le (g : Kripke) (f : Formula) :
    (spots g f).card ≤ 4 * g.size * f.size * (UInt64.size * UInt64.size) := by
  have hle (p m n : Nat) (hp : p ≤ 2 * f.size) (hm : m ≤ n) :
      g.size * (p * (2 * m)) ≤ 4 * g.size * f.size * n := by
    calc g.size * (p * (2 * m)) ≤ g.size * (2 * f.size * (2 * n)) := by gcongr
      _ = 4 * g.size * f.size * n := by ring
  refine Nat.le_trans Finset.card_image_le ?_
  rw [Finset.card_product, Finset.card_product, Finset.card_product, Finset.card_univ,
    Fintype.card_fin, Finset.card_univ, Fintype.card_bool]
  exact hle _ _ _ (Nat.le_trans (List.toFinset_card_le _) (Nat.le_of_lt (f.length_parts_lt ∅)))
    (card_costs_le UInt64.size)

theorem mem_spots {i : NodeId} {e : Formula} {w : Window} (hi : i.index < g.size)
    (he : Part f ∅ e w) (b : Bool) (c : Cost) : ⟨i, e, b, w, c, none, none⟩ ∈ spots g f := by
  refine Finset.mem_image.mpr ⟨(⟨i.index, hi⟩, (e, w), b, c), ?_, rfl⟩
  rw [Finset.mem_product, Finset.mem_product, Finset.mem_product, List.mem_toFinset]
  exact ⟨Finset.mem_univ _, he.mem_parts, Finset.mem_univ _,
    mem_costs c.time.toNat_lt c.energy.toNat_lt⟩

/-- The keys of sessions on parts of a formula. -/
def sessionSpots (g : Kripke) (f : Formula) : Finset SessionKey :=
  (spots g f).image fun k => ⟨k.node, k.formula, k.window, k.cost⟩

theorem mem_sessionSpots {i : NodeId} {e : Formula} {w : Window} (hi : i.index < g.size)
    (he : Part f ∅ e w) (c : Cost) : ⟨i, e, w, c⟩ ∈ sessionSpots g f :=
  Finset.mem_image.mpr ⟨_, mem_spots hi he false c, rfl⟩

/-- The keys with a link and a session that were not visited. -/
def Search.unseen (g : Kripke) (f : Formula) (s : Search) (link : Option RevisitId)
    (session : Option SessionId) : Nat :=
  ((spots g f).filter fun k => { k with link, session } ∉ s.visited).card

theorem Search.unseen_le (s : Search) (link : Option RevisitId) (session : Option SessionId) :
    s.unseen g f link session ≤ (spots g f).card := Finset.card_filter_le _ _

theorem Search.unseen_mono (h : s.visited ⊆ t.visited) (link : Option RevisitId)
    (session : Option SessionId) : t.unseen g f link session ≤ s.unseen g f link session := by
  refine Finset.card_le_card fun k hk => ?_
  rw [Finset.mem_filter] at hk ⊢
  exact ⟨hk.1, fun hv => hk.2 (h hv)⟩

/-- A visit leaves one key less. -/
theorem Search.unseen_visit (h : s.visited ⊆ t.visited) {k : VisitKey}
    (hk : { k with link := none, session := none } ∈ spots g f) (hs : k ∉ s.visited)
    (ht : k ∈ t.visited) :
    t.unseen g f k.link k.session + 1 ≤ s.unseen g f k.link k.session := by
  refine Finset.card_lt_card (Finset.ssubset_iff_subset_ne.mpr ⟨fun k' hk' => ?_, fun heq => ?_⟩)
  · rw [Finset.mem_filter] at hk' ⊢
    exact ⟨hk'.1, fun hv => hk'.2 (h hv)⟩
  · have hmem : { k with link := none, session := none } ∈
        (spots g f).filter fun k' => { k' with link := k.link, session := k.session } ∉ s.visited :=
      Finset.mem_filter.mpr ⟨hk, hs⟩
    rw [← heq, Finset.mem_filter] at hmem
    exact hmem.2 ht

/-! ### Prices -/

/-- What a visit of a formula of some height may lead to. -/
def weight (g : Kripke) (f : Formula) : Nat → Nat
  | 0 => g.edgeCount + 3
  | h + 1 => g.edgeCount + 3 + (spots g f).card * weight g f h

/-- What executing an obligation may lead to: the jobs of all edges, and a job for each required
formula, with all visits linked to it. -/
def Obligation.price (g : Kripke) (f : Formula) : Obligation → Nat
  | .revisit o p => o.price g f +
    if p.kind = .required then 1 + (spots g f).card * weight g f p.formula.height else 0
  | .here _ | .successors _ | .step _ | .constrain .. => g.edgeCount + 1

theorem weight_le (g : Kripke) (f : Formula) {m n : Nat} (h : m ≤ n) :
    weight g f m ≤ weight g f n := by
  induction n generalizing m with
  | zero => exact Nat.le_zero.mp h ▸ Nat.le_refl _
  | succ n ih =>
    cases m with
    | zero => exact Nat.le_add_right _ _
    | succ m =>
      have := ih (Nat.le_of_succ_le_succ h)
      simp only [weight]
      gcongr

/-- A visit pays for what it leads to. -/
theorem Formula.price_unfoldTemporal {e : Formula} {p : Position} {o : Obligation}
    (he : e.isUniversal = true) (h : e.unfoldTemporal p = .obligation o) :
    o.price g f ≤ weight g f e.height := by
  have hbase : g.edgeCount + 1 ≤ weight g f e.height :=
    Nat.le_trans (by simp [weight]) (weight_le g f (Nat.zero_le _))
  have hreq {l : Formula} (hl : l ∈ e.operands) :
      g.edgeCount + 1 + (1 + (spots g f).card * weight g f l.height) ≤ weight g f e.height := by
    have hlt := height_lt_of_mem_operands hl
    obtain ⟨h, hh⟩ := Nat.exists_eq_succ_of_ne_zero (Nat.ne_of_gt (Nat.zero_lt_of_lt hlt))
    have hle : weight g f l.height ≤ weight g f h := weight_le g f (by omega)
    have hmul := Nat.mul_le_mul_left (spots g f).card hle
    rw [hh]
    simp only [weight]
    omega
  have hproceed {looped : Unfolding} {inside : Obligation}
      (h : proceed p e looped inside = .obligation o) (hl : looped ≠ .obligation o)
      (hi : inside.price g f ≤ weight g f e.height) : o.price g f ≤ weight g f e.height := by
    unfold proceed at h
    split at h
    · exact absurd h hl
    · split at h
      · cases h
        exact hbase
      · cases h
        exact hi
  cases e with
  | atom => cases h
  | not | or | implies =>
    cases h
    exact hbase
  | and l r =>
    cases h
    exact hreq (l := l) (by simp [operands])
  | always q e =>
    cases q with
    | all => exact hproceed h (by simp) (hreq (l := e) (by simp [operands]))
    | some => cases he
  | eventually q e =>
    cases q with
    | all => exact hproceed h (by simp) hbase
    | some => cases he
  | next q e =>
    cases q with
    | all =>
      cases h
      exact hbase
    | some => cases he
  | strongUntil q l r | weakUntil q l r =>
    cases q with
    | all => exact hproceed h (by simp) (hreq (l := l) (by simp [operands]))
    | some => cases he
  | within e v =>
    cases h
    exact hbase

theorem Obligation.price_jobs {c : Context} {link : Option RevisitId} {o : Obligation}
    {jobs : List Job} (h : o.jobs? g c link = some jobs) : jobs.length ≤ o.price g f := by
  have hedges (i : NodeId) : (g.successors i).length ≤ g.edgeCount := by
    unfold Kripke.successors Kripke.successors?
    cases hi : g.edges[i.index]? with
    | none => simp
    | some out =>
      have hmem : out ∈ g.edges.toList := Array.mem_toList_iff.mpr (Array.mem_of_getElem? hi)
      exact List.Sublist.length_le (List.sublist_flatten_of_mem hmem)
  cases o with
  | here e =>
    cases h
    exact Nat.le_add_left _ _
  | successors e | step e =>
    cases h
    rw [Context.spread, List.length_map]
    exact Nat.le_trans (hedges c.node) (Nat.le_succ _)
  | constrain e v =>
    rw [Obligation.jobs?] at h
    split at h
    · cases h
      exact Nat.le_add_left _ _
    · cases h
  | revisit o p => cases h

/-! ### The potential -/

namespace Search

/-- What a waiter may lead to once it is told. -/
def waiterPrice (g : Kripke) (f : Formula) (s : Search) (w : RevisitId) : Nat :=
  (s.record? w).elim 0 (·.revisit.resume.price g f)

/-- What is still to come of a required formula: visits linked to the revisit, and its resumption.
Revisits of earlier requirements are over. -/
def revisitPrice (g : Kripke) (f : Formula) (m : Nat) (s : Search) (n : Nat) : Nat :=
  match s.record? ⟨n⟩ with
  | none => 0
  | some e =>
    if m < n ∧ e.revisit.precondition.kind = .required then
      s.unseen g f (some ⟨n⟩) e.revisit.session * weight g f e.revisit.precondition.formula.height +
        if e.resumed then 0 else e.revisit.resume.price g f
    else 0

open scoped Classical in
/-- What is still to come of a session: its visits, and its result. -/
noncomputable def sessionPrice (g : Kripke) (f : Formula) (s : Search) (n : Nat) : Nat :=
  if s.Open (some ⟨n⟩) then 1 + s.unseen g f none (some ⟨n⟩) * weight g f f.height else 0

end Search

def Task.price (g : Kripke) (f : Formula) (s : Search) : Task → Nat
  | .execute _ _ _ o => o.price g f
  | .tell _ w => s.waiterPrice g f w
  | _ => 0

namespace Search

def tasksPrice (g : Kripke) (f : Formula) (s : Search) : Nat := (s.tasks.map (·.price g f s)).sum

def waitersPrice (g : Kripke) (f : Formula) (s : Search) : Nat :=
  (s.parked.map (s.waiterPrice g f)).sum

def revisitsPrice (g : Kripke) (f : Formula) (m : Nat) (s : Search) : Nat :=
  ∑ n ∈ Finset.range (s.revisits.length + 1), s.revisitPrice g f m n

noncomputable def sessionsPrice (g : Kripke) (f : Formula) (s : Search) : Nat :=
  ∑ n ∈ Finset.range (s.sessions.length + 1), s.sessionPrice g f n

/-- What is still to come of sessions that are not open yet. -/
def keysPrice (g : Kripke) (f : Formula) (s : Search) : Nat :=
  ((sessionSpots g f).filter (· ∉ s.keys)).card * ((spots g f).card * weight g f f.height + 2)

/-- What is still to come of the requirement's own visits. -/
def rootPrice (g : Kripke) (f : Formula) (s : Search) : Nat :=
  s.unseen g f none none * weight g f f.height

noncomputable def recordsPrice (g : Kripke) (f : Formula) (m : Nat) (s : Search) : Nat :=
  s.revisitsPrice g f m + s.sessionsPrice g f + s.keysPrice g f + s.rootPrice g f

noncomputable def potential (g : Kripke) (f : Formula) (m : Nat) (s : Search) : Nat :=
  s.queue.length + s.resolved.length + s.tasksPrice g f + s.waitersPrice g f +
    s.recordsPrice g f m

/-! ### What changes a price -/

theorem waiterPrice_extends (h : s.Extends t) {w : RevisitId} (hw : s.record? w ≠ none) :
    t.waiterPrice g f w = s.waiterPrice g f w := by
  obtain ⟨e, he⟩ := Option.ne_none_iff_exists'.mp hw
  obtain ⟨b, hb, -⟩ := h.entry w e he
  rw [waiterPrice, waiterPrice, he, hb]
  rfl

/-- The price of parked waiters does not change as records are added. -/
theorem sum_waiterPrice_extends (h : s.Extends t) (hv : s.Valid g) :
    (s.parked.map (t.waiterPrice g f)).sum = s.waitersPrice g f := by
  rw [waitersPrice]
  congr 1
  exact List.map_congr_left fun w hw => waiterPrice_extends h (hv.parked_on_record hw)

theorem waitersPrice_le (h : s.Extends t) (hv : s.Valid g) (hp : t.parked = s.parked) :
    t.waitersPrice g f ≤ s.waitersPrice g f := by
  rw [waitersPrice, hp, sum_waiterPrice_extends h hv]

end Search

theorem Task.price_extends (h : s.Extends t) {k : Task} (hk : k.Valid g s) :
    k.price g f t = k.price g f s := by
  cases k with
  | tell result w =>
    obtain ⟨i, ⟨e, he, -⟩, -⟩ := hk
    exact Search.waiterPrice_extends h (by simp [he])
  | process | execute | resume | fail | release => rfl

namespace Search

theorem tasksPrice_cons {k : Task} {ts : List Task} (ht : s.tasks = k :: ts) :
    s.tasksPrice g f = k.price g f s + (ts.map (·.price g f s)).sum := by
  rw [tasksPrice, ht, List.map_cons, List.sum_cons]

/-- The first task gives way to others, for its price. -/
theorem tasksPrice_replace (h : s.Extends t) (hv : s.Valid g) {k : Task} {ts new : List Task}
    (ht : s.tasks = k :: ts) (hnew : t.tasks = new ++ ts) :
    t.tasksPrice g f + k.price g f s = (new.map (·.price g f t)).sum + s.tasksPrice g f := by
  have hts : (ts.map (·.price g f t)).sum = (ts.map (·.price g f s)).sum := by
    congr 1
    exact List.map_congr_left fun k hk => Task.price_extends h (hv.tail ht k hk)
  rw [tasksPrice_cons ht, tasksPrice, hnew, List.map_append, List.sum_append, hts]
  omega

/-- Summands that fall, one of them by `d`. -/
theorem sum_range_add_le {n i d : Nat} {a b : Nat → Nat} (h : ∀ k, b k ≤ a k) (hi : i < n)
    (hd : b i + d ≤ a i) : ∑ k ∈ Finset.range n, b k + d ≤ ∑ k ∈ Finset.range n, a k := by
  have hmem := Finset.mem_range.mpr hi
  rw [← Finset.add_sum_erase _ b hmem, ← Finset.add_sum_erase _ a hmem]
  have := Finset.sum_le_sum fun k (_ : k ∈ (Finset.range n).erase i) => h k
  omega

theorem revisitPrice_of_required {i : RevisitId} {e : RevisitEntry} (hi : s.record? i = some e)
    (hb : m < i.index) (hk : e.revisit.precondition.kind = .required) :
    s.revisitPrice g f m i.index = s.unseen g f (some i) e.revisit.session *
      weight g f e.revisit.precondition.formula.height +
        if e.resumed then 0 else e.revisit.resume.price g f := by
  rw [revisitPrice, hi]
  exact if_pos ⟨hb, hk⟩

theorem revisitPrice_le (hr : t.revisits = s.revisits) (hv : s.visited ⊆ t.visited) (n : Nat) :
    t.revisitPrice g f m n ≤ s.revisitPrice g f m n := by
  rw [revisitPrice, revisitPrice, record?, record?, hr]
  split
  · exact Nat.le_refl _
  · split
    · exact Nat.add_le_add_right (Nat.mul_le_mul_right _ (unseen_mono hv _ _)) _
    · exact Nat.le_refl _

theorem revisitsPrice_le (hr : t.revisits = s.revisits) (hv : s.visited ⊆ t.visited) :
    t.revisitsPrice g f m ≤ s.revisitsPrice g f m := by
  rw [revisitsPrice, revisitsPrice, hr]
  exact Finset.sum_le_sum fun n _ => revisitPrice_le hr hv n

theorem sessionPrice_of_open {i : SessionId} (h : s.Open (some i)) :
    s.sessionPrice g f i.index = 1 + s.unseen g f none (some i) * weight g f f.height := if_pos h

theorem sessionPrice_le (ho : ∀ i, t.Open (some i) → s.Open (some i)) (hv : s.visited ⊆ t.visited)
    (n : Nat) : t.sessionPrice g f n ≤ s.sessionPrice g f n := by
  rw [sessionPrice, sessionPrice]
  split
  · next h =>
    rw [if_pos (ho _ h)]
    have := Nat.mul_le_mul_right (weight g f f.height)
      (unseen_mono (g := g) (f := f) hv none (some ⟨n⟩))
    omega
  · exact Nat.zero_le _

theorem sessionsPrice_le (hl : t.sessions.length = s.sessions.length)
    (ho : ∀ i, t.Open (some i) → s.Open (some i)) (hv : s.visited ⊆ t.visited) :
    t.sessionsPrice g f ≤ s.sessionsPrice g f := by
  rw [sessionsPrice, sessionsPrice, hl]
  exact Finset.sum_le_sum fun n _ => sessionPrice_le ho hv n

/-- A session gets its result. -/
theorem sessionsPrice_settle (hl : t.sessions.length = s.sessions.length)
    (ho : ∀ i, t.Open (some i) → s.Open (some i)) (hv : s.visited ⊆ t.visited) {i : SessionId}
    (hi : s.Open (some i)) (ht : ¬ t.Open (some i)) :
    t.sessionsPrice g f + 1 ≤ s.sessionsPrice g f := by
  rw [sessionsPrice, sessionsPrice, hl]
  obtain ⟨u, hu, -⟩ := Option.map_eq_some_iff.mp hi
  refine sum_range_add_le (sessionPrice_le ho hv) (i := i.index)
    (Nat.lt_succ_of_le (Numbered.le_of_get? hu)) ?_
  rw [sessionPrice, sessionPrice, if_neg ht, if_pos hi]
  omega

theorem keysPrice_le (hk : t.keys = s.keys) : t.keysPrice g f ≤ s.keysPrice g f := by
  rw [keysPrice, keysPrice, hk]

theorem rootPrice_le (hv : s.visited ⊆ t.visited) : t.rootPrice g f ≤ s.rootPrice g f :=
  Nat.mul_le_mul_right _ (unseen_mono hv none none)

/-- A new revisit has the price of the precondition that it waits for. -/
theorem revisitsPrice_suspend (s : Search) (r : Revisit) :
    (s.suspend r).revisitsPrice g f m ≤ s.revisitsPrice g f m +
      if r.precondition.kind = .required then
        (spots g f).card * weight g f r.precondition.formula.height + r.resume.price g f
      else 0 := by
  have hlen : (s.suspend r).revisits.length = s.revisits.length + 1 := by simp [suspend]
  rw [revisitsPrice, hlen, Finset.sum_range_succ]
  refine Nat.add_le_add (Finset.sum_le_sum fun n hn => ?_) ?_
  · have hrec : (s.suspend r).record? ⟨n⟩ = s.record? ⟨n⟩ := by
      rw [record?, suspend, Numbered.get?_append]
      exact if_pos (Nat.le_of_lt_succ (Finset.mem_range.mp hn))
    rw [revisitPrice, revisitPrice, hrec]
    exact Nat.le_refl _
  · have hrec : (s.suspend r).record? ⟨s.revisits.length + 1⟩ = some ⟨r, false⟩ :=
      Numbered.get?_concat_self _ _
    rw [revisitPrice, hrec]
    dsimp only
    split
    · next h =>
      rw [if_pos h.2]
      exact Nat.add_le_add_right (Nat.mul_le_mul_right _ (unseen_le _ _ _)) _
    · exact Nat.zero_le _

/-- A revisit is resumed. -/
theorem revisitsPrice_markResumed {i : RevisitId} {e : RevisitEntry} (hi : s.record? i = some e)
    (hb : m < i.index) (hk : e.revisit.precondition.kind = .required) (hr : e.resumed = false) :
    (s.markResumed i).revisitsPrice g f m + e.revisit.resume.price g f ≤
      s.revisitsPrice g f m := by
  have hlen : (s.markResumed i).revisits.length = s.revisits.length :=
    Numbered.length_modify _ _ _
  have hself : (s.markResumed i).record? i = some { e with resumed := true } := by
    rw [record?_markResumed, if_pos rfl, hi]
    rfl
  rw [revisitsPrice, revisitsPrice, hlen]
  have hdrop : (s.markResumed i).revisitPrice g f m i.index + e.revisit.resume.price g f =
      s.revisitPrice g f m i.index := by
    rw [revisitPrice_of_required hself hb hk, revisitPrice_of_required hi hb hk, hr]
    rfl
  refine sum_range_add_le (fun n => ?_) (Nat.lt_succ_of_le (Numbered.le_of_get? hi))
    (Nat.le_of_eq hdrop)
  by_cases hn : (⟨n⟩ : RevisitId) = i
  · cases hn
    exact Nat.le.intro hdrop
  · rw [revisitPrice, revisitPrice, record?_markResumed, if_neg hn]
    exact Nat.le_refl _

/-- A new session has the price of all its visits. -/
theorem sessionsPrice_openSession (s : Search) (root : Job) (w : RevisitId) :
    (s.openSession root w).sessionsPrice g f ≤
      s.sessionsPrice g f + (1 + (spots g f).card * weight g f f.height) := by
  have hlen : (s.openSession root w).sessions.length = s.sessions.length + 1 := by
    simp [openSession]
  rw [sessionsPrice, hlen, Finset.sum_range_succ]
  refine Nat.add_le_add (Finset.sum_le_sum fun n hn => ?_) ?_
  · have hres : (s.openSession root w).result? (some ⟨n⟩) = s.result? (some ⟨n⟩) := by
      rw [result?, result?, session?, openSession, Numbered.get?_append]
      exact congrArg _ (if_pos (Nat.le_of_lt_succ (Finset.mem_range.mp hn)))
    rw [sessionPrice, sessionPrice, Open, Open, hres]
    exact Nat.le_refl _
  · rw [sessionPrice]
    split
    · have := Nat.mul_le_mul_right (weight g f f.height)
        ((s.openSession root w).unseen_le (g := g) (f := f) none (some ⟨s.sessions.length + 1⟩))
      omega
    · exact Nat.zero_le _

/-- A key is used up by a new session. -/
theorem keysPrice_concat {k : SessionKey} (ht : t.keys = s.keys ++ [k]) (hk : k ∈ sessionSpots g f)
    (hs : k ∉ s.keys) :
    t.keysPrice g f + ((spots g f).card * weight g f f.height + 2) ≤ s.keysPrice g f := by
  have hlt : ((sessionSpots g f).filter (· ∉ t.keys)).card + 1 ≤
      ((sessionSpots g f).filter (· ∉ s.keys)).card := by
    refine Finset.card_lt_card (Finset.ssubset_iff_subset_ne.mpr ⟨fun k' hk' => ?_, fun heq => ?_⟩)
    · rw [Finset.mem_filter, ht] at hk'
      exact Finset.mem_filter.mpr ⟨hk'.1, fun h => hk'.2 (List.mem_append_left _ h)⟩
    · have hmem : k ∈ (sessionSpots g f).filter (· ∉ s.keys) := Finset.mem_filter.mpr ⟨hk, hs⟩
      rw [← heq, Finset.mem_filter, ht] at hmem
      exact hmem.2 (List.mem_append_right _ (List.mem_singleton_self k))
  have := Nat.mul_le_mul_right ((spots g f).card * weight g f f.height + 2) hlt
  rw [Nat.add_mul, Nat.one_mul] at this
  exact this

/-- Nothing happens to the records, but for visits. -/
theorem recordsPrice_le (hr : t.revisits = s.revisits)
    (hl : t.sessions.length = s.sessions.length) (ho : ∀ i, t.Open (some i) → s.Open (some i))
    (hk : t.keys = s.keys) (hvis : s.visited ⊆ t.visited) :
    t.recordsPrice g f m ≤ s.recordsPrice g f m := by
  have h₁ := revisitsPrice_le (g := g) (f := f) (m := m) hr hvis
  have h₂ := sessionsPrice_le (g := g) (f := f) hl ho hvis
  have h₃ := keysPrice_le (g := g) (f := f) hk
  have h₄ := rootPrice_le (g := g) (f := f) hvis
  rw [recordsPrice, recordsPrice]
  omega

/-- A session changes, but for its result. -/
theorem recordsPrice_modifySession (s : Search) (i : SessionId) {h : Session → Session}
    (hr : ∀ u, (h u).result = u.result) :
    (s.modifySession i h).recordsPrice g f m ≤ s.recordsPrice g f m :=
  recordsPrice_le rfl (Numbered.length_modify _ _ _)
    (fun k hk => (s.result?_modifySession i hr (some k)).symm.trans hk) rfl (List.Subset.refl _)

theorem recordsPrice_retain (s : Search) (n : Nat) (session : Option SessionId) :
    (s.retain n session).recordsPrice g f m ≤ s.recordsPrice g f m := by
  cases session with
  | none => exact Nat.le_refl _
  | some i => exact s.recordsPrice_modifySession i (by intro u; rfl)

/-- A session gets its result. -/
theorem recordsPrice_complete {i : SessionId} (hi : s.Open (some i)) {result : SessionResult}
    (hr : result ≠ .pending) :
    (s.complete i result).recordsPrice g f m + 1 ≤ s.recordsPrice g f m := by
  have h := sessionsPrice_settle (g := g) (f := f) (s := s) (t := s.complete i result)
    (Numbered.length_modify _ _ _) (fun k hk => ?_) (List.Subset.refl _) hi ?_
  · rw [recordsPrice, recordsPrice]
    have h₁ : (s.complete i result).revisitsPrice g f m = s.revisitsPrice g f m := rfl
    have h₂ : (s.complete i result).keysPrice g f = s.keysPrice g f := rfl
    have h₃ : (s.complete i result).rootPrice g f = s.rootPrice g f := rfl
    omega
  · rw [Open, result?_complete s hi] at hk
    split at hk
    · cases hk
      exact absurd rfl hr
    · exact hk
  · rw [Open, result?_complete s hi, if_pos rfl]
    exact fun h => hr (Option.some.inj h)

theorem recordsPrice_suspend (s : Search) (r : Revisit) :
    (s.suspend r).recordsPrice g f m ≤ s.recordsPrice g f m +
      if r.precondition.kind = .required then
        (spots g f).card * weight g f r.precondition.formula.height + r.resume.price g f
      else 0 := by
  have h := s.revisitsPrice_suspend (g := g) (f := f) (m := m) r
  have h₁ : (s.suspend r).sessionsPrice g f = s.sessionsPrice g f := rfl
  have h₂ : (s.suspend r).keysPrice g f = s.keysPrice g f := rfl
  have h₃ : (s.suspend r).rootPrice g f = s.rootPrice g f := rfl
  rw [recordsPrice, recordsPrice]
  omega

theorem recordsPrice_markResumed {i : RevisitId} {e : RevisitEntry} (hi : s.record? i = some e)
    (hb : m < i.index) (hk : e.revisit.precondition.kind = .required) (hr : e.resumed = false) :
    (s.markResumed i).recordsPrice g f m + e.revisit.resume.price g f ≤
      s.recordsPrice g f m := by
  have h := revisitsPrice_markResumed (g := g) (f := f) hi hb hk hr
  have h₁ : (s.markResumed i).sessionsPrice g f = s.sessionsPrice g f := rfl
  have h₂ : (s.markResumed i).keysPrice g f = s.keysPrice g f := rfl
  have h₃ : (s.markResumed i).rootPrice g f = s.rootPrice g f := rfl
  rw [recordsPrice, recordsPrice]
  omega

/-- A new session has a new key, which pays for it. -/
theorem recordsPrice_openSession {root : Job} {w : RevisitId}
    (hk : root.sessionKey ∈ sessionSpots g f) (hs : root.sessionKey ∉ s.keys) :
    (s.openSession root w).recordsPrice g f m + 1 ≤ s.recordsPrice g f m := by
  have h₁ : (s.openSession root w).revisitsPrice g f m = s.revisitsPrice g f m := rfl
  have h₂ := s.sessionsPrice_openSession (g := g) (f := f) root w
  have h₃ := keysPrice_concat (s := s) (t := s.openSession root w) rfl hk hs
  have h₄ : (s.openSession root w).rootPrice g f = s.rootPrice g f := rfl
  rw [recordsPrice, recordsPrice]
  omega

/-- A visit pays for itself, out of what its link or its session was given. -/
theorem recordsPrice_visit {j : Job} (ho : s.Open j.session)
    (hj : j.visitKey ∉ s.visited) (hfresh : (Work.job j).Fresh m) (hr : s.Reached f (.job j))
    (hs : s.Linked j.session j.link) (hn : j.node.index < g.size) (ts : List Task) :
    ({ s with visited := s.visited ++ [j.visitKey], tasks := ts } : Search).recordsPrice g f m +
      weight g f j.formula.height ≤ s.recordsPrice g f m := by
  obtain ⟨t, ht⟩ : ∃ t, t = ({ s with visited := s.visited ++ [j.visitKey], tasks := ts } : Search) :=
    ⟨_, rfl⟩
  have hvis : s.visited ⊆ t.visited := by
    rw [ht]
    exact List.subset_append_left _ _
  have hmem : j.visitKey ∈ t.visited := by
    rw [ht]
    exact List.mem_append_right _ (List.mem_singleton_self _)
  have hunseen : t.unseen g f j.link j.session + 1 ≤ s.unseen g f j.link j.session :=
    unseen_visit (k := j.visitKey) hvis (mem_spots hn hr.1 _ _) hj hmem
  have hdrop {n : Nat} (h : j.formula.height ≤ n) :
      t.unseen g f j.link j.session * weight g f n + weight g f j.formula.height ≤
        s.unseen g f j.link j.session * weight g f n := by
    have h₁ := Nat.mul_le_mul_right (weight g f n) hunseen
    have h₂ := weight_le g f h
    rw [Nat.add_mul, Nat.one_mul] at h₁
    omega
  have hopen (i : SessionId) : t.Open (some i) → s.Open (some i) := by
    rw [ht]
    exact id
  have h₂ := revisitsPrice_le (g := g) (f := f) (m := m) (s := s) (t := t) (by rw [ht]) hvis
  have h₃ := sessionsPrice_le (g := g) (f := f) (s := s) (t := t) (by rw [ht]) hopen hvis
  have h₄ : t.keysPrice g f = s.keysPrice g f := by
    rw [ht]
    rfl
  have h₅ := rootPrice_le (g := g) (f := f) hvis
  rw [← ht, recordsPrice, recordsPrice]
  cases hlink : j.link with
  | some i =>
    obtain ⟨e, he, hsess, hk⟩ := hs i hlink
    obtain ⟨e', he', hheight⟩ : ∃ e, s.record? i = some e ∧ _ := by
      have := hr.2
      rwa [hlink] at this
    obtain rfl := Option.some.inj (he.symm.trans he')
    have hb : m < i.index := hfresh i hlink
    have het : t.record? i = some e := by
      rw [ht]
      exact he
    have : t.revisitsPrice g f m + weight g f j.formula.height ≤ s.revisitsPrice g f m := by
      have hrev : t.revisits = s.revisits := by rw [ht]
      rw [revisitsPrice, revisitsPrice, hrev]
      refine sum_range_add_le (revisitPrice_le hrev hvis)
        (Nat.lt_succ_of_le (Numbered.le_of_get? he)) ?_
      rw [revisitPrice_of_required het hb hk, revisitPrice_of_required he hb hk, hsess]
      rw [hlink] at hdrop
      have := hdrop hheight
      omega
    omega
  | none =>
    have hheight : j.formula.height ≤ f.height := by
      have := hr.2
      rwa [hlink] at this
    have hd := hdrop hheight
    rw [hlink] at hd
    cases hsession : j.session with
    | none =>
      rw [hsession] at hd
      have : t.rootPrice g f + weight g f j.formula.height ≤ s.rootPrice g f := hd
      omega
    | some i =>
      rw [hsession] at hd ho
      have : t.sessionsPrice g f + weight g f j.formula.height ≤ s.sessionsPrice g f := by
        have hlen : t.sessions = s.sessions := by rw [ht]
        obtain ⟨u, hu, -⟩ := Option.map_eq_some_iff.mp ho
        rw [sessionsPrice, sessionsPrice, hlen]
        refine sum_range_add_le (sessionPrice_le hopen hvis) (i := i.index)
          (Nat.lt_succ_of_le (Numbered.le_of_get? hu)) ?_
        have hot : t.Open (some i) := by
          rw [ht]
          exact ho
        rw [sessionPrice_of_open ho, sessionPrice_of_open hot]
        omega
      omega

end Search

/-! ### No move raises the potential -/

theorem Reaction.price_tasks (n : Nat) (c : Context) (link : Option RevisitId) (o : Obligation)
    (reaction : Reaction) :
    ((reaction.tasks n c link o).map (·.price g f s)).sum ≤ o.price g f := by
  cases reaction <;> simp [tasks, Task.price]

theorem Unfolding.price_tasks {j : Job} {p : Position} {u : Unfolding}
    (hj : j.formula.isUniversal = true) (hu : j.formula.unfold p = .ok u) :
    ((u.tasks j).map (·.price g f s)).sum ≤ weight g f j.formula.height := by
  cases u with
  | pass | fail => simp [tasks, Task.price]
  | obligation o =>
    have := price_unfoldTemporal (g := g) (f := f) hj (unfoldTemporal_of_unfold hu).2
    simpa [tasks, Task.price] using this

/-- Waiters are taken from a session. -/
theorem Search.tasksPrice_dismiss (hv : s.Valid g) (he : s.Extends t) {i : SessionId} {u : Session}
    (hi : s.session? i = some u) (hp : t.parked = (s.dismiss i).parked)
    (ht : t.tasks = u.waiters.toList.map (.tell u.result)) :
    t.tasksPrice g f + t.waitersPrice g f = s.waitersPrice g f := by
  have hperm := (parked_dismiss hi).map (t.waiterPrice g f)
  have hsum := hperm.sum_eq
  rw [List.map_append, List.sum_append, ← hp, sum_waiterPrice_extends he hv] at hsum
  rw [tasksPrice, ht, List.map_map, ← hsum, Nat.add_comm]
  rfl

/-- The first task gives way to others. What it adds to jobs, results, waiters and records is paid
for by itself, or by other records. -/
theorem Search.potential_le (he : s.Extends t) (hv : s.Valid g) {k : Task} {ts : List Task}
    (ht : s.tasks = k :: ts) (new : List Task) (hnew : t.tasks = new ++ ts) {a b c d e : Nat}
    (hq : t.queue.length ≤ s.queue.length + a) (hres : t.resolved.length ≤ s.resolved.length + b)
    (hw : t.waitersPrice g f ≤ s.waitersPrice g f + c)
    (hr : t.recordsPrice g f m + d ≤ s.recordsPrice g f m + e)
    (hprice : (new.map (·.price g f t)).sum + a + b + c + e ≤ k.price g f s + d) :
    t.potential g f m ≤ s.potential g f m := by
  have := tasksPrice_replace (f := f) he hv ht hnew
  rw [potential, potential]
  omega

/-- The first task gives way to others, which are paid for by it or by records. -/
theorem Search.potential_replace (he : s.Extends t) (hv : s.Valid g) {k : Task} {ts : List Task}
    (ht : s.tasks = k :: ts) (new : List Task) (hnew : t.tasks = new ++ ts)
    (hq : t.queue = s.queue) (hres : t.resolved = s.resolved) (hp : t.parked = s.parked) {d : Nat}
    (hprice : (new.map (·.price g f t)).sum ≤ k.price g f s + d)
    (hr : t.recordsPrice g f m + d ≤ s.recordsPrice g f m) :
    t.potential g f m ≤ s.potential g f m :=
  potential_le he hv ht new hnew (a := 0) (b := 0) (c := 0) (e := 0) (by rw [hq]; exact Nat.le_refl _)
    (by rw [hres]; exact Nat.le_refl _) (waitersPrice_le he hv hp) hr hprice

/-- One more waiter. -/
theorem Search.waitersPrice_park (he : s.Extends t) (hv : s.Valid g) {w : RevisitId} {e : RevisitEntry}
    (hp : t.parked.Perm (s.parked ++ [w])) (hw : t.record? w = some e) :
    t.waitersPrice g f ≤ s.waitersPrice g f + e.revisit.resume.price g f := by
  have hsum := (hp.map (t.waiterPrice g f)).sum_eq
  rw [List.map_append, List.sum_append, sum_waiterPrice_extends he hv] at hsum
  rw [waitersPrice, hsum, List.map_singleton, List.sum_singleton, waiterPrice, hw]
  exact Nat.le_refl _

/-- Every turn starts with a move that lowers the potential. -/
theorem Move.potential_lt (h : Move g s t) (hv : s.Valid g) (ht : s.tasks = []) :
    t.potential g f m < s.potential g f m := by
  have he := h.extends
  have hlt (hq : t.queue.length + t.resolved.length < s.queue.length + s.resolved.length)
      (hw : t.tasksPrice g f + t.waitersPrice g f ≤ s.waitersPrice g f)
      (hr : t.recordsPrice g f m ≤ s.recordsPrice g f m) :
      t.potential g f m < s.potential g f m := by
    rw [Search.potential, Search.potential]
    omega
  cases h with
  | @notify i rest u _ hr hi =>
    refine hlt ?_ (Nat.le_of_eq (Search.tasksPrice_dismiss hv he hi rfl rfl))
      (s.recordsPrice_modifySession i (by intro u; rfl))
    rw [hr]
    exact Nat.lt_succ_self _
  | @take j rest _ hr hq =>
    refine hlt ?_ (Nat.le_of_eq (Nat.zero_add _)) (Nat.le_refl _)
    rw [hq.perm.length_eq]
    exact Nat.add_lt_add_right (Nat.lt_succ_self _) _
  | stale ht' | repeated ht' | visit ht' | spawn ht' | judge ht' | require ht' | inquire ht'
    | join ht' | answerLate ht' | answer ht' | resumeNone ht' | resumeAgain ht' | resumeLate ht'
    | resume ht' | tellLate ht' | tell ht' | exceed ht' | decide ht' | decideLate ht'
    | releaseNone ht' | release ht' | finish ht' => cases ht.symm.trans ht'

theorem Move.potential_le (h : Move g s t) (hv : s.Valid g) (hi : s.All m (s.InScope f))
    (hr : s.All m (s.Reached f)) (hf : f.isUniversal = true) :
    t.potential g f m ≤ s.potential g f m := by
  have he := h.extends
  cases h with
  | notify ht hr hs => exact Nat.le_of_lt (Move.potential_lt (.notify ht hr hs) hv ht)
  | take ht hr hq => exact Nat.le_of_lt (Move.potential_lt (.take ht hr hq) hv ht)
  | @stale j ts ht | @repeated j ts ht =>
    exact Search.potential_replace he hv ht [.release j.session] rfl rfl rfl rfl (d := 0)
      (Nat.zero_le _) (Nat.le_refl _)
  | resumeNone ht | resumeAgain ht | decideLate ht | releaseNone ht =>
    exact Search.potential_replace he hv ht [] rfl rfl rfl rfl (d := 0) (Nat.zero_le _)
      (Nat.le_refl _)
  | @tellLate result i ts e ht =>
    exact Search.potential_replace he hv ht [.release e.revisit.session] rfl rfl rfl rfl (d := 0)
      (Nat.zero_le _) (Nat.le_refl _)
  | @visit j ts node u ht ho hj hn hu =>
    obtain ⟨hfresh, hreached⟩ := hr.head ht _ rfl
    refine Search.potential_replace he hv ht (u.tasks j ++ [.release j.session]) (by simp) rfl rfl
      rfl (d := weight g f j.formula.height) ?_ (Search.recordsPrice_visit ho hj hfresh hreached
        (hi.head ht _ rfl).2.1 (hv.head ht).node _)
    have := Unfolding.price_tasks (g := g) (f := f) (s := { s with
      visited := s.visited ++ [j.visitKey]
      tasks := u.tasks j ++ .release j.session :: ts }) (hreached.1.isUniversal hf) hu
    simp only [List.map_append, List.sum_append]
    exact Nat.le_trans this (Nat.le_add_left _ _)
  | @judge n c link o p ts node judgement ht hp hn hj =>
    refine Search.potential_replace he hv ht _ rfl rfl rfl rfl (d := 0) ?_ (Nat.le_refl _)
    exact Nat.le_trans (Reaction.price_tasks n c link o _) (Nat.le_add_right _ _)
  | @tell result i ts e finding ht hi hf ho =>
    refine Search.potential_replace he hv ht (_ ++ [.release e.revisit.session])
      (by rw [List.append_assoc]; rfl) rfl rfl rfl (d := 0) ?_ (Nat.le_refl _)
    rw [List.map_append, List.sum_append]
    refine Nat.le_trans (Reaction.price_tasks _ _ _ _ _) ?_
    rw [Task.price, Search.waiterPrice, hi]
    exact Nat.le_refl _
  | @resumeLate n c i ts e ht he' hr' hs =>
    obtain ⟨hfresh, hlinked⟩ := hi.head ht _ rfl
    obtain ⟨e', he'', -, hk⟩ := hlinked i rfl
    obtain rfl := Option.some.inj (he'.symm.trans he'')
    exact Search.potential_replace he hv ht [] rfl rfl rfl rfl (d := e.revisit.resume.price g f)
      (Nat.zero_le _) (Search.recordsPrice_markResumed he' (hfresh i rfl) hk hr')
  | @resume n c i ts e ht he' hr' ho =>
    obtain ⟨hfresh, hlinked⟩ := hi.head ht _ rfl
    obtain ⟨e', he'', -, hk⟩ := hlinked i rfl
    obtain rfl := Option.some.inj (he'.symm.trans he'')
    exact Search.potential_replace he hv ht
      [.execute n e.revisit.toContext e.revisit.parent e.revisit.resume] rfl rfl rfl rfl
      (d := e.revisit.resume.price g f) (by simp [Task.price])
      (Search.recordsPrice_markResumed he' (hfresh i rfl) hk hr')
  | @exceed i x ts ht hx =>
    exact Search.potential_replace he hv ht [] rfl rfl rfl
      (s.parked_modifySession_eq i (by intro u; rfl)) (d := 0) (Nat.zero_le _)
      (s.recordsPrice_modifySession i (by intro u; rfl))
  | @release i ts u ht hi hn hl =>
    exact Search.potential_replace he hv ht [] rfl rfl rfl
      (s.parked_modifySession_eq i (by intro u; rfl)) (d := 0) (Nat.zero_le _)
      (s.recordsPrice_modifySession i (by intro u; rfl))
  | @decide i x ts ht hx ho =>
    refine Search.potential_le he hv ht [] rfl (a := 0) (b := 1) (c := 0) (d := 1) (e := 0)
      (Nat.le_refl _) ?_ (Search.waitersPrice_le he hv (s.parked_modifySession_eq i (by intro u; rfl)))
      (Search.recordsPrice_complete ho (by simp)) (Nat.le_refl _)
    exact Nat.le_of_eq (List.length_append ..)
  | @finish i ts u ht hi hn hr =>
    have ho : (s.release i).Open (some i) := by
      rw [Search.Open, Search.result?_release, Search.result?, hi, Option.map_some, hr]
    have hparked : ((s.release i).complete i u.outcome).parked = s.parked :=
      ((s.release i).parked_modifySession_eq i (by intro u; rfl)).trans
        (s.parked_modifySession_eq i (by intro u; rfl))
    have hrecords := Search.recordsPrice_complete (g := g) (f := f) (m := m) ho
      (Search.Valid.outcome_ne_pending u)
    have hrelease := s.recordsPrice_modifySession (g := g) (f := f) (m := m) i
      (h := fun u => { u with outstanding := u.outstanding - 1 }) (by intro u; rfl)
    refine Search.potential_le he hv ht [] rfl (a := 0) (b := 1) (c := 0) (d := 1) (e := 0)
      (Nat.le_refl _) (Nat.le_of_eq (List.length_append ..)) (Search.waitersPrice_le he hv hparked)
      (Nat.le_trans hrecords hrelease) (Nat.le_refl _)
  | @spawn n c link o ts jobs ht hj =>
    refine Search.potential_le he hv ht [] rfl (a := jobs.length) (b := 0) (c := 0) (d := 0)
      (e := 0) (Nat.le_of_eq (List.length_append ..)) (by
        rw [Search.withTasks, Search.push, Search.resolved_retain]; exact Nat.le_refl _)
      (Search.waitersPrice_le he hv (s.parked_push c.session jobs)) (s.recordsPrice_retain _ _) ?_
    simpa [Task.price] using Obligation.price_jobs hj
  | @require n c link o p ts ht hp hk =>
    have hrecords := s.recordsPrice_suspend (g := g) (f := f) (m := m) ⟨c, o, p, link⟩
    rw [if_pos hk] at hrecords
    refine Search.potential_le he hv ht [] rfl (a := 1) (b := 0) (c := 0) (d := 0)
      (Nat.le_of_eq (List.length_append ..)) (by
        rw [Search.withTasks, Search.push, Search.resolved_retain]; exact Nat.le_refl _)
      (Search.waitersPrice_le he hv ((s.suspend _).parked_push c.session _))
      (Nat.le_trans ((s.suspend _).recordsPrice_retain _ _) hrecords) ?_
    simp only [Task.price, Obligation.price, hk, if_true, List.map_nil, List.sum_nil]
    omega
  | @inquire n c link o p ts ht hp hk hkey =>
    have hrecords := s.recordsPrice_suspend (g := g) (f := f) (m := m) ⟨c, o, p, link⟩
    rw [if_neg hk] at hrecords
    have hspot : (c.inquiry p.formula).sessionKey ∈ sessionSpots g f :=
      mem_sessionSpots (hv.head ht).1.node (hr.head ht _ rfl).2.1.1 _
    have hopen := Search.recordsPrice_openSession (s := s.suspend ⟨c, o, p, link⟩) (m := m)
      (w := s.nextRevisit) hspot hkey
    refine Search.potential_le he hv ht [] rfl (a := 1) (b := 0) (c := o.price g f) (d := 1)
      (e := 0) ?_ ?_ (Search.waitersPrice_park he hv (w := s.nextRevisit)
        (e := ⟨⟨c, o, p, link⟩, false⟩) ?_ ?_)
      (Nat.le_trans (Nat.add_le_add_right (Search.recordsPrice_retain _ _ _) 1)
        (Nat.le_trans hopen hrecords)) ?_
    · rw [Search.withTasks, Search.queue_retain]
      exact Nat.le_of_eq (List.length_append ..)
    · rw [Search.withTasks, Search.resolved_retain]
      exact Nat.le_refl _
    · rw [Search.withTasks]
      exact .of_eq (((Search.openSession _ _ _).parked_retain 1 c.session).trans
        (Search.parked_openSession _ _ _))
    · rw [Search.withTasks]
      cases c.session <;> exact Numbered.get?_concat_self _ _
    · simp only [Task.price, Obligation.price, hk, if_false, List.map_nil, List.sum_nil]
      omega
  | @join n c link o p ts i ht hp hk hkey hi =>
    have hrecords := s.recordsPrice_suspend (g := g) (f := f) (m := m) ⟨c, o, p, link⟩
    rw [if_neg hk] at hrecords
    have hjoin := (s.suspend ⟨c, o, p, link⟩).recordsPrice_modifySession (g := g) (f := f)
      (m := m) i (h := fun t => { t with waiters := t.waiters.pushBack s.nextRevisit })
      (by intro u; rfl)
    obtain ⟨u, hu, -⟩ := Option.map_eq_some_iff.mp hi
    refine Search.potential_le he hv ht [] rfl (a := 0) (b := 0) (c := o.price g f) (d := 0)
      (e := 0) ?_ ?_ (Search.waitersPrice_park he hv (w := s.nextRevisit)
        (e := ⟨⟨c, o, p, link⟩, false⟩) ?_ ?_)
      (Nat.le_trans (Search.recordsPrice_retain _ _ _) (Nat.le_trans hjoin hrecords)) ?_
    · rw [Search.withTasks, Search.queue_retain]
      exact Nat.le_refl _
    · rw [Search.withTasks, Search.resolved_retain]
      exact Nat.le_refl _
    · rw [Search.withTasks]
      exact (List.Perm.of_eq ((Search.join _ _ _).parked_retain 1 c.session)).trans
        (Search.parked_join (s := s.suspend ⟨c, o, p, link⟩) hu _)
    · rw [Search.withTasks]
      cases c.session <;> exact Numbered.get?_concat_self _ _
    · simp only [Task.price, Obligation.price, hk, if_false, List.map_nil, List.sum_nil]
      omega
  | @answerLate n c link o p ts i ht hp hk hkey hi hs =>
    have hrecords := s.recordsPrice_suspend (g := g) (f := f) (m := m) ⟨c, o, p, link⟩
    rw [if_neg hk] at hrecords
    exact Search.potential_replace he hv ht [] rfl rfl rfl rfl (d := 0) (Nat.zero_le _) hrecords
  | @answer n c link o p ts i u finding ht hp hk hkey hi hf ho =>
    have hrecords := s.recordsPrice_suspend (g := g) (f := f) (m := m) ⟨c, o, p, link⟩
    rw [if_neg hk] at hrecords
    refine Search.potential_replace he hv ht _ rfl rfl rfl rfl (d := 0) ?_ hrecords
    exact Nat.le_trans (Reaction.price_tasks n c link o _) (Nat.le_add_right _ _)

end CostCTL
