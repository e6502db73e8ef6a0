import CostCTL.Formula.Semantics
import CostCTL.Proofs.Work

/-!
# The scope of a search

A search for a formula looks at its parts only, each within the windows that stand around it
(`Formula.Part`), and so does every session for the formula that it was opened for. A precondition
is smaller than the formula it belongs to, so sessions wait for sessions on smaller formulas: there
is no cycle of waiting, and when nothing is left to do, every session has its result
(`Search.All.settled_of_idle`).
-/

namespace CostCTL

variable {g : Kripke} {s t : Search} {base : Nat}

namespace Formula

/-- The operands that stand within the same windows. -/
def operands : Formula → List Formula
  | atom _ | within .. => []
  | not f | always _ f | eventually _ f | next _ f => [f]
  | and l r | or l r | implies l r | strongUntil _ l r | weakUntil _ l r => [l, r]

/-- A formula that may be looked at when `f` is checked within `w`, and the windows around it. The
left side of an implication is looked at as a negation. -/
inductive Part (f : Formula) (w : Window) : Formula → Window → Prop where
  | self : Part f w f w
  | operand {e e' : Formula} {u : Window} (h : Part f w e u) (he : e' ∈ e.operands) : Part f w e' u
  | negated {l r : Formula} {u : Window} (h : Part f w (implies l r) u) : Part f w (not l) u
  | inner {e : Formula} {v u u' : Window} (h : Part f w (within e v) u) (hm : u.merge v = .ok u') :
    Part f w e u'

theorem size_lt_of_mem_operands {f e : Formula} (h : e ∈ f.operands) : e.size < f.size := by
  cases f <;> simp [operands] at h <;> (try obtain rfl | rfl := h) <;> simp [size] <;> omega

theorem size_pos (f : Formula) : 0 < f.size := by
  cases f <;> simp only [size] <;> omega

theorem Part.size_le {f e : Formula} {w u : Window} (h : Part f w e u) : e.size ≤ f.size := by
  induction h with
  | self => exact Nat.le_refl _
  | operand _ he ih => exact Nat.le_trans (Nat.le_of_lt (size_lt_of_mem_operands he)) ih
  | @negated l r _ _ ih =>
    have := r.size_pos
    simp only [size] at ih ⊢
    omega
  | inner _ _ ih =>
    simp only [size] at ih
    omega

theorem isUniversal_of_mem_operands {f e : Formula} (hf : f.isUniversal = true)
    (h : e ∈ f.operands) : e.isUniversal = true := by
  cases f with
  | atom | within => cases h
  | not f => exact List.mem_singleton.mp h ▸ hf
  | always q f | eventually q f | next q f =>
    cases q with
    | all => exact List.mem_singleton.mp h ▸ hf
    | some => cases hf
  | and l r | or l r | implies l r =>
    have hf : (l.isUniversal && r.isUniversal) = true := hf
    rw [Bool.and_eq_true] at hf
    simp only [operands, List.mem_cons, List.not_mem_nil, or_false] at h
    rcases h with rfl | rfl
    · exact hf.1
    · exact hf.2
  | strongUntil q l r | weakUntil q l r =>
    cases q with
    | all =>
      have hf : (l.isUniversal && r.isUniversal) = true := hf
      rw [Bool.and_eq_true] at hf
      simp only [operands, List.mem_cons, List.not_mem_nil, or_false] at h
      rcases h with rfl | rfl
      · exact hf.1
      · exact hf.2
    | some => cases hf

theorem Part.isUniversal {f e : Formula} {w u : Window} (h : Part f w e u)
    (hf : f.isUniversal = true) : e.isUniversal = true := by
  induction h with
  | self => exact hf
  | operand _ he ih => exact isUniversal_of_mem_operands ih he
  | @negated l r _ _ ih => exact isUniversal_of_mem_operands (e := l) ih List.mem_cons_self
  | inner _ _ ih => exact ih

theorem isUniversal_universal (f : Formula) : f.universal.isUniversal = true := by
  induction f with
  | atom => rfl
  | not f ih | within f w ih => exact ih
  | and l r ihl ihr | or l r ihl ihr | implies l r ihl ihr =>
    exact Bool.and_eq_true_iff.mpr ⟨ihl, ihr⟩
  | always q f ih | eventually q f ih | next q f ih => cases q <;> exact ih
  | strongUntil q l r ihl ihr | weakUntil q l r ihl ihr =>
    cases q <;> simp [universal, neither, isUniversal, ihl, ihr]

/-- Where there is no quantifier over some path, nothing is replaced. -/
theorem universal_of_isUniversal {f : Formula} (hf : f.isUniversal = true) : f.universal = f := by
  induction f with
  | atom => rfl
  | not f ih | within f w ih => rw [universal, ih hf]
  | and l r ihl ihr | or l r ihl ihr | implies l r ihl ihr =>
    obtain ⟨hl, hr⟩ := Bool.and_eq_true_iff.mp hf
    rw [universal, ihl hl, ihr hr]
  | always q f ih | eventually q f ih | next q f ih =>
    cases q with
    | all => rw [universal, ih hf]
    | some => cases hf
  | strongUntil q l r ihl ihr | weakUntil q l r ihl ihr =>
    cases q with
    | all =>
      obtain ⟨hl, hr⟩ := Bool.and_eq_true_iff.mp hf
      rw [universal, ihl hl, ihr hr]
    | some => cases hf

end Formula

open Formula

/-- The parts of the root that the obligation leads to. What goes on after an `ignored`
precondition never does. -/
def Obligation.Fits (root : Formula × Window) (w : Window) : Obligation → Prop
  | .here f | .successors f | .step f => Part root.1 root.2 f w
  | .constrain f v => Part root.1 root.2 (.within f v) w
  | .revisit o p => Part root.1 root.2 p.formula w ∧ p.formula.size < root.1.size ∧
    (p.kind = .ignored ∨ o.Fits root w)

theorem Formula.fits_unfoldTemporal {root : Formula × Window} {f : Formula} {p : Position}
    {w : Window} {o : Obligation} (hf : Part root.1 root.2 f w)
    (hu : root.1.isUniversal = true) (h : f.unfoldTemporal p = .obligation o) : o.Fits root w := by
  have hop {e : Formula} (he : e ∈ f.operands) :
      Part root.1 root.2 e w ∧ e.size < root.1.size :=
    ⟨hf.operand he, Nat.lt_of_lt_of_le (size_lt_of_mem_operands he) hf.size_le⟩
  have hproceed {looped : Unfolding} {inside : Obligation}
      (h : proceed p f looped inside = .obligation o) (hl : looped ≠ .obligation o)
      (hi : inside.Fits root w) : o.Fits root w := by
    unfold proceed at h
    split at h
    · exact absurd h hl
    · split at h
      · cases h
        exact hf
      · cases h
        exact hi
  have huntil {l r : Formula} (hl : l ∈ f.operands) (hr : r ∈ f.operands) :
      (untilObligation f l r).Fits root w :=
    ⟨(hop hr).1, (hop hr).2, .inr ⟨(hop hl).1, (hop hl).2, .inr hf⟩⟩
  have hall := hf.isUniversal hu
  cases f with
  | atom a => cases h
  | not e =>
    cases h
    exact ⟨(hop List.mem_cons_self).1, (hop List.mem_cons_self).2, .inl rfl⟩
  | and l r | or l r =>
    cases h
    have hl := hop (e := l) (by simp [operands])
    exact ⟨hl.1, hl.2, .inr (hop (e := r) (by simp [operands])).1⟩
  | implies l r =>
    cases h
    refine ⟨hf.negated, ?_, .inr (hop (e := r) (by simp [operands])).1⟩
    have hle := hf.size_le
    have := r.size_pos
    simp only [size] at hle ⊢
    omega
  | always q e =>
    cases q with
    | all =>
      have he := hop (e := e) (by simp [operands])
      exact hproceed h (by simp) ⟨he.1, he.2, .inr hf⟩
    | some => cases hall
  | eventually q e =>
    cases q with
    | all =>
      have he := hop (e := e) (by simp [operands])
      exact hproceed h (by simp) ⟨he.1, he.2, .inr hf⟩
    | some => cases hall
  | next q e =>
    cases q with
    | all =>
      cases h
      exact (hop (e := e) (by simp [operands])).1
    | some => cases hall
  | strongUntil q l r | weakUntil q l r =>
    cases q with
    | all => exact hproceed h (by simp) (huntil (by simp [operands]) (by simp [operands]))
    | some => cases hall
  | within e v =>
    cases h
    exact hf

/-- Unfolding leaves an obligation only to formulas with path operators or windows. -/
theorem Formula.unfoldTemporal_of_unfold {f : Formula} {p : Position} {o : Obligation}
    (h : f.unfold p = .ok (.obligation o)) :
    f.isState = false ∧ f.unfoldTemporal p = .obligation o := by
  unfold Formula.unfold at h
  split at h
  · obtain ⟨judgement, -, hj⟩ := exists_of_bind_eq_ok h
    cases judgement <;> cases hj
  · next hs => exact ⟨by simpa using hs, Except.ok.inj h⟩

/-- What work for a session is about: the session's formula and window. Other work is about the
requirement. -/
def Search.scope? (f : Formula) (s : Search) : Option SessionId → Option (Formula × Window)
  | none => some (f, ∅)
  | some i => (s.key? i).map fun k => (k.formula, k.window)

/-- The link is to a revisit for the same session, which requires what is linked to it. -/
def Search.Linked (s : Search) (session : Option SessionId) (link : Option RevisitId) : Prop :=
  ∀ i, link = some i → ∃ e, s.record? i = some e ∧ e.revisit.session = session ∧
    e.revisit.precondition.kind = .required

def Search.InScope (f : Formula) (s : Search) : Work → Prop
  | .job j => s.Linked j.session j.link ∧ ∃ root, s.scope? f j.session = some root ∧
    root.1.isUniversal = true ∧ Part root.1 root.2 j.formula j.window
  | .todo c link o => s.Linked c.session link ∧ ∃ root, s.scope? f c.session = some root ∧
    root.1.isUniversal = true ∧ o.Fits root c.window
  | .done c link => s.Linked c.session link
  | .fail .. | .outcome .. => True

namespace Search

theorem Extends.scope? (h : s.Extends t) {f : Formula} {session : Option SessionId}
    {root : Formula × Window} (hs : s.scope? f session = some root) :
    t.scope? f session = some root := by
  cases session with
  | none => exact hs
  | some i =>
    obtain ⟨k, hk, rfl⟩ := Option.map_eq_some_iff.mp hs
    rw [Search.scope?, h.key i k hk]
    rfl

theorem Linked.extends {session : Option SessionId} {link : Option RevisitId}
    (hl : s.Linked session link) (h : s.Extends t) : t.Linked session link := by
  intro i hi
  obtain ⟨e, he, hs, hk⟩ := hl i hi
  obtain ⟨b, hb, -⟩ := h.entry i e he
  exact ⟨_, hb, hs, hk⟩

/-- The session that a revisit waits for is about its precondition. -/
theorem scope?_of_key? {f : Formula} {i : SessionId} {c : Context} {e : Formula}
    (h : s.key? i = some (c.inquiry e).sessionKey) : s.scope? f (some i) = some (e, c.window) := by
  rw [scope?, h]
  rfl

/-- A reaction goes on only if the precondition is not `ignored`. -/
theorem InScope.react {f : Formula} {c : Context} {link : Option RevisitId} {o : Obligation}
    {p : Precondition} (h : s.InScope f (.todo c link (.revisit o p))) (finding : Finding) :
    s.InScope f ((p.react c finding).work c link o) := by
  obtain ⟨hl, root, hroot, hu, -, -, hgo⟩ := h
  have hproceed (hk : p.kind ≠ .ignored) : s.InScope f (.todo c link o) :=
    ⟨hl, root, hroot, hu, hgo.resolve_left hk⟩
  cases finding with
  | holds =>
    unfold Precondition.react
    cases hk : p.kind with
    | required => exact hproceed (by simp [hk])
    | skip => exact hl
    | ignored => trivial
  | fails x =>
    unfold Precondition.react
    cases hk : p.kind with
    | required => trivial
    | skip => exact hproceed (by simp [hk])
    | ignored => exact hl
  | budget x => trivial

theorem inScope_hands (g : Kripke) (base : Nat) (f : Formula) :
    Hands g base (fun _ _ => True) (InScope f) where
  mono := by
    intro s t x h hx
    cases x with
    | job j =>
      obtain ⟨hl, root, hroot, hu, hp⟩ := hx
      exact ⟨hl.extends h, root, h.scope? hroot, hu, hp⟩
    | todo c link o =>
      obtain ⟨hl, root, hroot, hu, hp⟩ := hx
      exact ⟨hl.extends h, root, h.scope? hroot, hu, hp⟩
    | done c link => exact Linked.extends hx h
    | fail | outcome => trivial
  unfold := by
    intro s j node u _ _ _ h _ hu
    obtain ⟨hl, root, hroot, huni, hp⟩ := h
    cases u with
    | pass => exact hl
    | fail v => trivial
    | obligation o =>
      exact ⟨hl, root, hroot, huni, fits_unfoldTemporal hp huni (unfoldTemporal_of_unfold hu).2⟩
  spawn := by
    intro s c link o jobs _ _ _ h hj j hjm
    obtain ⟨hl, root, hroot, huni, hfits⟩ := h
    cases o with
    | here e =>
      cases hj
      obtain rfl := List.mem_singleton.mp hjm
      exact ⟨hl, root, hroot, huni, hfits⟩
    | successors e | step e =>
      cases hj
      obtain ⟨d, -, rfl⟩ := List.mem_map.mp hjm
      exact ⟨hl, root, hroot, huni, hfits⟩
    | constrain e v =>
      rw [Obligation.jobs?] at hj
      split at hj
      · next hm =>
        cases hj
        obtain rfl := List.mem_singleton.mp hjm
        exact ⟨hl, root, hroot, huni, Part.inner hfits hm⟩
      · cases hj
    | revisit o p => cases hj
  judge := by
    intro s c link o p node judgement _ _ h _ _ _
    exact h.react _
  answer := by
    intro s c link o p i result finding _ _ h _ _ _ _ _ _ _ _
    exact h.react _
  require := by
    intro s c link o p _ _ h _ hk
    obtain ⟨hl, root, hroot, huni, hp, -⟩ := h
    have he := s.extends_suspend ⟨c, o, p, link⟩
    refine ⟨fun i hi => ?_, root, he.scope? hroot, huni, hp⟩
    obtain rfl := Option.some.inj hi
    exact ⟨_, Numbered.get?_concat_self _ _, rfl, hk⟩
  inquire := by
    intro s c link o p _ _ h _ _ _
    obtain ⟨-, root, -, huni, hp, -⟩ := h
    refine ⟨fun i hi => (by cases hi), (p.formula, c.window), ?_, hp.isUniversal huni, .self⟩
    exact scope?_of_key? (Numbered.get?_concat_self _ _)
  resume := by
    intro s c i e _ _ hd hi _ _ h _
    obtain ⟨hl, root, hroot, huni, -, -, hgo⟩ := h
    obtain ⟨e', he', -, hk⟩ := hd i rfl
    obtain rfl := Option.some.inj (hi.symm.trans he')
    exact ⟨hl, root, hroot, huni, hgo.resolve_left (by simp [hk])⟩
  exceed := by intros; trivial
  settle := by intros; trivial
  pass := by intros; trivial

/-! ### Nothing waits for ever -/

/-- Sessions wait for sessions on smaller formulas, so the one on the smallest has a job. -/
theorem All.exists_job_of_open {f : Formula} {i : SessionId} {k : SessionKey}
    (h : s.All base (s.InScope f)) (hv : s.Valid g) (ha : s.Accounts) (ht : s.tasks = [])
    (hr : s.resolved = []) (hi : s.Open (some i)) (hk : s.key? i = some k)
    (hleast : ∀ m k', s.Open (some m) → s.key? m = some k' → k.formula.size ≤ k'.formula.size) :
    ∃ j ∈ s.queue, j.session = some i := by
  obtain ⟨u, hu, hpend⟩ := Option.map_eq_some_iff.mp hi
  by_contra hnone
  have hqueue : s.queue.countP (·.session = some i) = 0 :=
    List.countP_eq_zero.mpr fun j hj hji => hnone ⟨j, hj, of_decide_eq_true hji⟩
  have hbusy := ha.busy i u hu hpend
  rw [ha.balance i u hu, work, owed, hqueue, ht, List.countP_nil, Nat.zero_add, Nat.add_zero] at hbusy
  -- some revisit of the session waits for another session
  obtain ⟨w, hw, howner⟩ := List.countP_pos_iff.mp (Nat.pos_of_ne_zero hbusy)
  obtain ⟨v, hv', hwv⟩ := List.mem_flatMap.mp hw
  obtain ⟨m, hm⟩ := Numbered.exists_get?_of_mem hv'
  obtain ⟨e, he, -, -, hkey⟩ := hv.waiters ⟨m⟩ v hm w hwv
  have hvpend : v.result = .pending := by
    by_contra hne
    have := ha.unheard ⟨m⟩ v hm hne (List.ne_nil_of_mem hwv)
    rw [hr] at this
    cases this
  obtain ⟨-, -, root, hroot, -, -, hsize, -⟩ := h.revisits w e he (h.waiters ⟨m⟩ v hm w hwv)
  have hsession : e.revisit.session = some i := by simpa [owner?, he] using howner
  rw [hsession, scope?, hk] at hroot
  cases hroot
  have hopen : s.Open (some ⟨m⟩) := by
    rw [Open, result?, show s.session? ⟨m⟩ = some v from hm, Option.map_some, hvpend]
  exact absurd hsize (Nat.not_lt.mpr (hleast ⟨m⟩ _ hopen hkey))

theorem All.settled_of_idle {f : Formula} (h : s.All base (s.InScope f)) (hv : s.Valid g)
    (ha : s.Accounts) (hs : s.Idle) {i : SessionId} {u : Session} (hi : s.session? i = some u) :
    u.result ≠ .pending := by
  have main (n : Nat) : ∀ i k, s.key? i = some k → k.formula.size = n → ¬ s.Open (some i) := by
    induction n using Nat.strongRecOn with
    | ind n ih =>
      intro i k hk hn hopen
      obtain ⟨j, hj, -⟩ := h.exists_job_of_open hv ha hs.1 hs.2.1 hopen hk fun m k' hm hk' =>
        Nat.not_lt.mp fun hlt => ih _ (hn ▸ hlt) m k' hk' rfl hm
      rw [hs.2.2] at hj
      cases hj
  intro hpend
  have hopen : s.Open (some i) := by rw [Open, result?, hi, Option.map_some, hpend]
  obtain ⟨k, hk⟩ := hv.key?_of_result? (i := i) (by rw [hopen]; simp)
  exact main _ i k hk rfl hopen

/-- When nothing is left to do, nobody waits. -/
theorem All.parked_of_idle {f : Formula} (h : s.All base (s.InScope f)) (hv : s.Valid g)
    (ha : s.Accounts) (hs : s.Idle) : s.parked = [] := by
  rw [parked, List.flatMap_eq_nil_iff]
  intro u hu
  obtain ⟨n, hn⟩ := Numbered.exists_get?_of_mem hu
  by_contra hne
  have := ha.unheard ⟨n⟩ u hn (h.settled_of_idle hv ha hs hn) hne
  rw [hs.2.1] at this
  cases this

end Search

/-! ### All work of a check -/

variable {order : PendingOrder} {fs : List Formula} {past : Search}

/-- The requirement that is looked at, in universal form. -/
def current (fs : List Formula) : Formula := (fs.headD falsum).universal

/-- Nothing happens before the first requirement. -/
theorem Course.eq_start (h : Course g order [] past s) : past = .start order ∧ s = .start order := by
  generalize hfs : ([] : List Formula) = fs at h
  induction h with
  | start => exact ⟨rfl, rfl⟩
  | seed => cases hfs
  | move _ hm ih =>
    obtain ⟨-, rfl⟩ := ih hfs
    cases hm with
    | notify _ hr _ => cases hr
    | @take j rest _ _ hq =>
      have := hq.perm
      simp [Search.start] at this
    | stale ht | repeated ht | visit ht | spawn ht | judge ht | require ht | inquire ht | join ht
      | answerLate ht | answer ht | resumeNone ht | resumeAgain ht | resumeLate ht | resume ht
      | tellLate ht | tell ht | exceed ht | decide ht | decideLate ht | releaseNone ht
      | release ht | finish ht => cases ht

theorem Search.All.start (order : PendingOrder) (R : Work → Prop) :
    (Search.start order).All 0 R := by
  constructor <;> simp [Search.start, Search.record?, Search.session?, Numbered.get?_eq_some_iff]

/-- The next requirement starts from the results of the earlier ones, and nothing else. -/
theorem Search.All.seed {R R' : Work → Prop} {f : Formula} (h : s.All base R) (hs : s.Idle)
    (hp : s.parked = []) (hroot : ∀ i ∈ g.initial, R' (.job (.root i f)))
    (hcarry : ∀ i r, R (.outcome i r) → R' (.outcome i r)) :
    (s.seed g f).All s.revisits.length R' where
  base_le := Nat.le_refl _
  queue j hj := by
    rw [Search.seed, hs.2.2, List.nil_append] at hj
    obtain ⟨i, hi, rfl⟩ := List.mem_map.mp hj
    exact ⟨fun _ hl => (by cases hl), hroot i hi⟩
  tasks k hk := by
    rw [Search.seed, hs.1] at hk
    cases hk
  revisits i e hi hb := absurd (Numbered.le_of_get? hi) (Nat.not_le.mpr hb)
  waiters i u hi w hw := by
    have : w ∈ s.parked := List.mem_flatMap.mpr ⟨u, Numbered.mem_of_get? hi, hw⟩
    rw [hp] at this
    cases this
  results i u hi hr := hcarry i _ (h.results i u hi hr)
  exceeded i u x hi hx := hcarry i _ (h.exceeded i u x hi hx)

/-- A property that is handed on, from the first jobs of each requirement, is had by all work. -/
theorem Course.all {P Q : Formula → Search → Work → Prop} (h : Course g order fs past s)
    (hands : ∀ f ∈ fs, ∀ base, Hands g base (P f.universal) (Q f.universal))
    (hP : ∀ {es : List Formula} {past s : Search}, es ⊆ fs → Course g order es past s →
      s.All past.revisits.length (Q (current es) s) →
      s.All past.revisits.length (P (current es) s))
    (root : ∀ f ∈ fs, ∀ i ∈ g.initial, ∀ s, Q f.universal s (.job (.root i f.universal)))
    (carry : ∀ f f' s i r, Q f s (.outcome i r) → Q f' s (.outcome i r))
    (quiet : ∀ {es : List Formula} {past s : Search}, es ⊆ fs → Course g order es past s →
      s.All past.revisits.length (Q (current es) s) → s.Idle → s.parked = []) :
    s.All past.revisits.length (Q (current fs) s) := by
  induction h with
  | start => exact .start order _
  | @seed fs past s before hs f ih =>
    have hsub : fs ⊆ f :: fs := List.subset_cons_self f fs
    have ih := ih (fun e he => hands e (hsub he)) (fun hes => hP (List.Subset.trans hes hsub))
      (fun e he => root e (hsub he)) (fun hes => quiet (List.Subset.trans hes hsub))
    have hands := hands f List.mem_cons_self 0
    refine ih.seed hs (quiet hsub before ih hs) (fun i hi => root f List.mem_cons_self i hi _)
      fun i r hr => hands.mono (s.extends_seed g f.universal) (carry _ _ _ _ _ hr)
  | @move fs past s t before hm ih =>
    cases fs with
    | nil =>
      obtain ⟨rfl, rfl⟩ := (Course.move before hm).eq_start
      exact .start order _
    | cons f fs =>
      obtain ⟨hv, ha⟩ := before.valid_accounts
      have ih := ih hands hP root quiet
      exact hm.all hv ha (hands f List.mem_cons_self _) (hP (List.Subset.refl _) before ih) ih

theorem Course.inScope (h : Course g order fs past s) :
    s.All past.revisits.length (s.InScope (current fs)) := by
  refine h.all (P := fun _ _ _ => True) (Q := fun f s => s.InScope f)
    (fun f _ base => Search.inScope_hands g base f.universal) (fun _ _ hall => ?_)
    (fun f _ i _ s => ?_) (fun _ _ _ _ _ _ => trivial) fun _ hc hall hs => ?_
  · exact hall.imp fun _ _ => trivial
  · exact ⟨fun _ hl => (by cases hl), _, rfl, isUniversal_universal f, .self⟩
  · obtain ⟨hv, ha⟩ := hc.valid_accounts
    exact hall.parked_of_idle hv ha hs

end CostCTL
