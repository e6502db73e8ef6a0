import CostCTL.Proofs.Termination

/-!
# Verdicts of sessions

A session tells a violation of truth from a violation of the budget: it fails by the first only, and
the second is remembered, so that it does not pass (`Session.TellsApart`). Its result is given once.

This is read off the calls that a run made of its store, where all reports and all results are
written down in their order. What the calls tell is kept by every operation of a run (`Run.Spares`),
except that a session is given its result or a report. That is done only to a session that is still
open, and so the calls go on telling the same (`Run.Advances`) through turns, requirements and
checks.
-/

namespace CostCTL

variable {g : Kripke} {settings : Settings} {r r₁ r₂ : Run} {i : SessionId}
  {session : Option SessionId}

/-- The call reports a violation to the session. -/
def Call.Reports (i : SessionId) : Call → Prop
  | .exceed k _ => k = i
  | .complete k (.fail _) _ => k = i
  | _ => False

/-- The call neither reports to a session nor gives it a result. -/
def Call.isSilent : Call → Bool
  | .exceed .. | .complete .. => false
  | _ => true

structure Session.TellsApart (t : Session) : Prop where
  failed : ∀ x, t.result = .fail x → x.violation.isBudget = false
  exceeded : ∀ x, t.result = .exceeded x → x.violation.isBudget = true
  recorded : ∀ x, t.exceeded = some x → x.violation.isBudget = true
  passed : t.result = .pass → t.exceeded = none

structure Run.TellsApart (r : Run) : Prop where
  sessions : ∀ i t, r.store.session? i = some t → t.TellsApart
  /-- a violation that was reported to a session shows -/
  reported : ∀ call ∈ r.calls.toList, ∀ i, call.Reports i →
    ∃ t, r.store.session? i = some t ∧ (t.exceeded ≠ none ∨ ∃ x, t.result = .fail x)
  /-- the result of a session is the one that it was given -/
  completed : ∀ i result, .complete i result true ∈ r.calls.toList ↔
    r.store.sessionResult? i = some result ∧ result ≠ .pending

/-- No violation was ever reported to a session that passed. -/
theorem Run.TellsApart.unreported (h : r.TellsApart) (hi : r.store.sessionResult? i = some .pass) :
    ∀ call ∈ r.calls.toList, ¬ call.Reports i := by
  intro call hc hr
  obtain ⟨t, ht, hshows⟩ := h.reported call hc i hr
  rw [Store.sessionResult?, ht] at hi
  have hpass : t.result = .pass := Option.some.inj hi
  rcases hshows with hx | ⟨x, hx⟩
  · exact hx ((h.sessions i t ht).passed hpass)
  · rw [hpass] at hx
    cases hx

/-! ### What a run leaves as it is -/

/-- The result of a session, and the branch that it remembers. -/
def Store.ruling? (s : Store) (i : SessionId) : Option (SessionResult × Option Counterexample) :=
  (s.session? i).map fun t => (t.result, t.exceeded)

/-- Sessions keep their results and memories. A new one has neither. -/
structure Store.Spares (s t : Store) : Prop where
  config : t.config = s.config
  ruling : ∀ i, t.ruling? i = s.ruling? i ∨
    (s.ruling? i = none ∧ t.ruling? i = some (.pending, none))

/-- No session is given a result or a report. -/
structure Run.Spares (r r' : Run) : Prop where
  store : r.store.Spares r'.store
  calls : ∃ l, r'.calls.toList = r.calls.toList ++ l ∧ ∀ call ∈ l, call.isSilent = true

/-- The calls are told further, and they tell as much of the sessions. -/
structure Run.Advances (r r' : Run) : Prop where
  config : r'.store.config = r.store.config
  calls : r.calls.toList <+: r'.calls.toList
  tellsApart : r.TellsApart → r'.TellsApart

/-- The session has no result. There is none for the requirement's own work. -/
def Run.Open (r : Run) : Option SessionId → Prop
  | none => True
  | some i => r.store.sessionResult? i = some .pending

namespace Store

variable {s t : Store}

theorem Spares.of_sessions_eq (hc : t.config = s.config) (h : t.sessions = s.sessions) :
    s.Spares t := by
  have (i : SessionId) : t.session? i = s.session? i := by
    rw [Store.session?_eq, Store.session?_eq, h]
  exact ⟨hc, fun i => .inl (by rw [ruling?, ruling?, this])⟩

theorem Spares.trans {u : Store} (h : s.Spares t) (h' : t.Spares u) : s.Spares u := by
  refine ⟨h'.config.trans h.config, fun i => ?_⟩
  rcases h'.ruling i with hu | ⟨ht, hu⟩
  · rw [hu]
    exact h.ruling i
  · rcases h.ruling i with hs | ⟨-, hs⟩
    · exact .inr ⟨hs.symm.trans ht, hu⟩
    · rw [ht] at hs
      cases hs

/-- Of a session that is spared, everything else may change. -/
theorem Spares.of_modify {n : Nat} {f : Session → Session}
    (hf : ∀ x, (f x).result = x.result ∧ (f x).exceeded = x.exceeded)
    (hc : t.config = s.config) (h : t.sessions = s.sessions.modify n f) : s.Spares t := by
  refine ⟨hc, ?_⟩
  rintro ⟨_ | k⟩
  · exact .inl rfl
  · refine .inl ?_
    change (t.sessions[k]?).map _ = (s.sessions[k]?).map _
    rw [h, Array.getElem?_modify]
    split
    · cases s.sessions[k]? with
      | none => rfl
      | some x => simp [hf x]
    · rfl

theorem Spares.of_push (hc : t.config = s.config) (h : t.sessions = s.sessions.push .fresh) :
    s.Spares t := by
  refine ⟨hc, ?_⟩
  rintro ⟨_ | k⟩
  · exact .inl rfl
  · change (t.sessions[k]?).map _ = (s.sessions[k]?).map _ ∨
      ((s.sessions[k]?).map _ = none ∧ (t.sessions[k]?).map _ = _)
    rw [h, Array.getElem?_push]
    split
    · next hk => exact .inr ⟨by simp [hk], rfl⟩
    · exact .inl rfl

end Store

namespace Store.Spares

variable {s t : Store} {x y : Session}

/-- A session is spared, or it is new. -/
theorem kept_or_new (h : s.Spares t) (hy : t.session? i = some y) :
    (∃ x, s.session? i = some x ∧ y.result = x.result ∧ y.exceeded = x.exceeded) ∨
      (y.result = .pending ∧ y.exceeded = none) := by
  have ht : t.ruling? i = some (y.result, y.exceeded) := by rw [ruling?, hy]; rfl
  rcases h.ruling i with he | ⟨-, he⟩
  · rw [ht] at he
    obtain ⟨x, hx, hxy⟩ := Option.map_eq_some_iff.mp he.symm
    obtain ⟨hr, hm⟩ := Prod.mk.inj hxy
    exact .inl ⟨x, hx, hr.symm, hm.symm⟩
  · rw [ht] at he
    exact .inr (Prod.mk.inj (Option.some.inj he))

theorem kept (h : s.Spares t) (hx : s.session? i = some x) :
    ∃ y, t.session? i = some y ∧ y.result = x.result ∧ y.exceeded = x.exceeded := by
  have hs : s.ruling? i = some (x.result, x.exceeded) := by rw [ruling?, hx]; rfl
  rcases h.ruling i with he | ⟨hn, -⟩
  · rw [hs] at he
    obtain ⟨y, hy, hxy⟩ := Option.map_eq_some_iff.mp he
    exact ⟨y, hy, Prod.mk.inj hxy⟩
  · rw [hs] at hn
    cases hn

theorem sessionResult? (h : s.Spares t) {result : SessionResult} (hr : result ≠ .pending) :
    t.sessionResult? i = some result ↔ s.sessionResult? i = some result := by
  constructor
  · intro ht
    obtain ⟨y, hy, rfl⟩ := Option.map_eq_some_iff.mp ht
    rcases h.kept_or_new hy with ⟨x, hx, he, -⟩ | ⟨hp, -⟩
    · rw [Store.sessionResult?, hx, he]
      rfl
    · exact absurd hp hr
  · intro hs
    obtain ⟨x, hx, rfl⟩ := Option.map_eq_some_iff.mp hs
    obtain ⟨y, hy, he, -⟩ := h.kept hx
    rw [Store.sessionResult?, hy, ← he]
    rfl

end Store.Spares

namespace Run

/-- Without a call. -/
theorem Spares.of_store (hs : r.store.Spares r₁.store) (hc : r₁.calls = r.calls) : r.Spares r₁ :=
  ⟨hs, [], by simp [hc], by simp⟩

theorem Spares.refl (r : Run) : r.Spares r := .of_store (.of_sessions_eq rfl rfl) rfl

theorem spares_note (r : Run) (n : Notice) : r.Spares (r.note n) :=
  .of_store (.of_sessions_eq rfl rfl) rfl

theorem Spares.trans (h : r.Spares r₁) (h' : r₁.Spares r₂) : r.Spares r₂ := by
  obtain ⟨l, hl, hs⟩ := h.calls
  obtain ⟨l', hl', hs'⟩ := h'.calls
  refine ⟨h.store.trans h'.store, l ++ l', by rw [hl', hl, List.append_assoc], fun call hc => ?_⟩
  exact (List.mem_append.mp hc).elim (hs call) (hs' call)

theorem Spares.open (h : r.Spares r₁) (ho : r.Open session) : r₁.Open session := by
  cases session with
  | none => trivial
  | some i =>
    obtain ⟨x, hx, hp⟩ := Option.map_eq_some_iff.mp ho
    obtain ⟨y, hy, he, -⟩ := h.store.kept hx
    rw [Run.Open, Store.sessionResult?, hy]
    exact congrArg some (he.trans hp)

theorem Advances.refl (r : Run) : r.Advances r := ⟨rfl, List.prefix_rfl, id⟩

theorem Advances.trans (h : r.Advances r₁) (h' : r₁.Advances r₂) : r.Advances r₂ :=
  ⟨h'.config.trans h.config, h.calls.trans h'.calls, h'.tellsApart ∘ h.tellsApart⟩

theorem Spares.advances (h : r.Spares r₁) : r.Advances r₁ := by
  obtain ⟨l, hl, hsilent⟩ := h.calls
  refine ⟨h.store.config, ⟨l, hl.symm⟩, fun ht => ?_⟩
  refine ⟨fun i y hy => ?_, fun call hc i hr => ?_, fun i result => ?_⟩
  · rcases h.store.kept_or_new hy with ⟨x, hx, hres, hmem⟩ | ⟨hres, hmem⟩
    · have := ht.sessions i x hx
      exact ⟨hres ▸ this.failed, hres ▸ this.exceeded, hmem ▸ this.recorded,
        hres ▸ hmem ▸ this.passed⟩
    · exact ⟨by simp [hres], by simp [hres], by simp [hmem], fun _ => hmem⟩
  · rw [hl, List.mem_append] at hc
    rcases hc with hc | hc
    · obtain ⟨x, hx, hshows⟩ := ht.reported call hc i hr
      obtain ⟨y, hy, hres, hmem⟩ := h.store.kept hx
      exact ⟨y, hy, hres ▸ hmem ▸ hshows⟩
    · have := hsilent call hc
      cases call <;> first | exact absurd hr id | cases this
  · have hnot : (Call.complete i result true ∈ l) ↔ False :=
      iff_false_intro fun hc => by cases hsilent _ hc
    rw [hl, List.mem_append, hnot, or_false, ht.completed]
    exact and_congr_left fun hr => (h.store.sessionResult? hr).symm

/-- An open session is given a result or a report, which the call tells. -/
theorem TellsApart.tell (h : r.TellsApart) {t : Session} (hi : r.store.session? i = some t)
    (hp : t.result = .pending) (f : Session → Session) (call : Call) (hf : (f t).TellsApart)
    (hreport : ∀ k, call.Reports k → k = i ∧ ((f t).exceeded ≠ none ∨ ∃ x, (f t).result = .fail x))
    (hkeep : t.exceeded ≠ none → (f t).exceeded ≠ none)
    (hresult : ∀ k result, call = .complete k result true ↔
      k = i ∧ (f t).result = result ∧ result ≠ .pending)
    (hs : r₁.store = r.store.modifySession i f)
    (hc : r₁.calls.toList = r.calls.toList ++ [call]) : r₁.TellsApart := by
  have hsession (k : SessionId) : r₁.store.session? k =
      if k = i then some (f t) else r.store.session? k := by
    rw [hs, Store.session?_modifySession hi]
  refine ⟨fun k y hy => ?_, fun call' hc' k hr => ?_, fun k result => ?_⟩
  · rw [hsession] at hy
    split at hy
    · cases hy
      exact hf
    · exact h.sessions k y hy
  · rw [hc, List.mem_append, List.mem_singleton] at hc'
    rcases hc' with hc' | rfl
    · obtain ⟨x, hx, hshows⟩ := h.reported call' hc' k hr
      by_cases hk : k = i
      · obtain rfl : t = x := Option.some.inj (hi.symm.trans (hk ▸ hx))
        refine ⟨f t, by rw [hsession, if_pos hk], .inl ?_⟩
        refine hshows.elim hkeep fun hfail => ?_
        obtain ⟨x, hx⟩ := hfail
        rw [hp] at hx
        cases hx
      · exact ⟨x, by rw [hsession, if_neg hk, hx], hshows⟩
    · obtain ⟨rfl, hshows⟩ := hreport k hr
      exact ⟨f t, by rw [hsession, if_pos rfl], hshows⟩
  · rw [hc, List.mem_append, List.mem_singleton, h.completed, eq_comm (b := call), hresult,
      Store.sessionResult?, Store.sessionResult?, hsession]
    by_cases hk : k = i
    · subst hk
      rw [if_pos rfl, hi]
      simp only [Option.map_some, Option.some.injEq, hp, true_and]
      exact or_iff_right fun h => h.2 h.1.symm
    · simp [hk]

end Run

/-! ### Computations -/

section Through

variable {ε α β : Type} {m : EStateM ε Run α} {Q : α → Run → Prop}

/-- From `r` the computation advances, and what it answers comes with `Q`. -/
def Run.Through (r : Run) (m : EStateM ε Run α) (Q : α → Run → Prop) : Prop :=
  match m r with
  | .ok a r' => r.Advances r' ∧ Q a r'
  | .error _ r' => r.Advances r'

namespace Run.Through

theorem pure {a : α} (h : Q a r) : r.Through (Pure.pure a : EStateM ε Run α) Q := ⟨.refl r, h⟩

theorem throw (e : ε) : r.Through (MonadExcept.throw e : EStateM ε Run α) Q := Advances.refl r

theorem of_get {k : Run → EStateM ε Run α} (h : r.Through (k r) Q) : r.Through (get >>= k) Q := h

theorem mono {Q' : α → Run → Prop} (h : r.Through m Q) (hQ : ∀ a r', Q a r' → Q' a r') :
    r.Through m Q' := by
  unfold Run.Through at h ⊢
  split <;> simp_all

theorem bind {k : α → EStateM ε Run β} {Q' : β → Run → Prop} (hm : r.Through m Q)
    (hk : ∀ a r', Q a r' → r'.Through (k a) Q') : r.Through (m >>= k) Q' := by
  unfold Run.Through at hm ⊢
  change match EStateM.bind m k r with | .ok a r' => _ | .error _ r' => _
  rw [EStateM.bind]
  cases hr : m r with
  | error e r₁ =>
    rw [hr] at hm
    exact hm
  | ok a r₁ =>
    rw [hr] at hm
    have hk := hk a r₁ hm.2
    unfold Run.Through at hk
    dsimp only
    cases hr' : k a r₁ with
    | error e r₂ =>
      rw [hr'] at hk
      exact hm.1.trans hk
    | ok b r₂ =>
      rw [hr'] at hk
      exact ⟨hm.1.trans hk.1, hk.2⟩

theorem ok {a : α} (h : r.Through m Q) (hm : m r = .ok a r₁) : r.Advances r₁ := by
  unfold Run.Through at h
  rw [hm] at h
  exact h.1

/-- Whatever the answers. -/
theorem forM {γ : Type} {f : γ → EStateM ε Run PUnit}
    (hf : ∀ a (r : Run), r.Through (f a) fun _ _ => True) (l : List γ) :
    r.Through (l.forM f) fun _ _ => True := by
  induction l generalizing r with
  | nil => exact .pure trivial
  | cons a l ih => exact (hf a r).bind fun _ _ _ => ih

end Run.Through

/-- No session is given a result or a report on the way. -/
def IsSparing (m : EStateM ε Run α) : Prop := ∀ r : Run, r.Through m fun _ r' => r.Spares r'

namespace IsSparing

theorem pure (a : α) : IsSparing (Pure.pure a : EStateM ε Run α) := fun r => .pure (.refl r)

theorem throw (e : ε) : IsSparing (MonadExcept.throw e : EStateM ε Run α) := fun _ => .throw e

theorem bind {k : α → EStateM ε Run β} (hm : IsSparing m) (hk : ∀ a, IsSparing (k a)) :
    IsSparing (m >>= k) :=
  fun r => (hm r).bind fun a r' h => (hk a r').mono fun _ _ h' => h.trans h'

theorem forM {γ : Type} {f : γ → EStateM ε Run PUnit} (hf : ∀ a, IsSparing (f a)) (l : List γ) :
    IsSparing (l.forM f) := by
  induction l with
  | nil => exact .pure _
  | cons a l ih => exact .bind (hf a) fun _ => ih

theorem of_modify {f : Run → Run} (hf : ∀ r : Run, r.Spares (f r)) :
    IsSparing (modify f : EStateM ε Run PUnit) :=
  fun r => ⟨(hf r).advances, hf r⟩

end IsSparing

end Through

namespace RunM

variable {α : Type} {m : RunM α}

/-! ### Operations that spare all sessions -/

theorem isSparing_note (n : Notice) : IsSparing (note n) := .of_modify (·.spares_note n)

theorem isSparing_expect (f : Fault) (a : Option α) : IsSparing (expect f a) := by
  cases a with
  | none => exact .throw _
  | some a => exact .pure a

theorem isSparing_ask (f : Fault) (query : Store → Option α) : IsSparing (ask f query) :=
  fun r => isSparing_expect f (query r.store) r

theorem isSparing_update {op : Store → α × Store} {call : α → Call}
    (hop : ∀ s : Store, s.Spares (op s).2) (hc : ∀ a, (call a).isSilent = true) :
    IsSparing (update op call) := by
  intro r
  have h : r.Spares { r with
      store := (op r.store).2, calls := r.calls.push (call (op r.store).1) } :=
    ⟨hop r.store, [call (op r.store).1], by simp, by simp [hc]⟩
  exact ⟨h.advances, h⟩

theorem isSparing_update? {f : Fault} {op : Store → Option α × Store} {call : α → Call}
    (hop : ∀ s : Store, s.Spares (op s).2) (hc : ∀ a, (call a).isSilent = true) :
    IsSparing (update? f op call) := by
  intro r
  have hs := hop r.store
  rcases hr : op r.store with ⟨_ | a, s⟩ <;> rw [hr] at hs <;> simp only [Run.Through, update?, hr]
  · have h : r.Spares { r with store := s } := .of_store hs rfl
    exact h.advances
  · have h : r.Spares { r with store := s, calls := r.calls.push (call a) } :=
      ⟨hs, [call a], by simp, by simp [hc]⟩
    exact ⟨h.advances, h⟩

/-- An operation on one session that leaves its result and its memory alone. -/
theorem isSparing_modifySession (i : SessionId) {f : Fault} {op : Store → Option α × Store}
    {call : α → Call} {φ : Session → Session}
    (hφ : ∀ t, (φ t).result = t.result ∧ (φ t).exceeded = t.exceeded)
    (hop : ∀ s, (op s).2 = s ∨ (op s).2 = s.modifySession i φ)
    (hc : ∀ a, (call a).isSilent = true) : IsSparing (update? f op call) := by
  refine isSparing_update? (fun s => ?_) hc
  rcases hop s with hs | hs
  · exact .of_sessions_eq (by rw [hs]) (by rw [hs])
  · exact .of_modify hφ (by rw [hs]; rfl) (by rw [hs]; rfl)

theorem isSparing_takeWaiters (i : SessionId) : IsSparing (takeWaiters i) := by
  refine isSparing_modifySession i (φ := fun t => { t with waiters := .empty })
    (fun _ => ⟨rfl, rfl⟩) (fun s => ?_) fun _ => rfl
  unfold Store.takeWaiters?
  split
  · exact .inl rfl
  · exact .inr rfl

theorem isSparing_retain (i : SessionId) : IsSparing (retain i) := by
  refine isSparing_modifySession i (φ := fun t => { t with outstanding := t.outstanding + 1 })
    (fun _ => ⟨rfl, rfl⟩) (fun s => ?_) fun _ => rfl
  unfold Store.retain?
  split
  · exact .inl rfl
  · exact .inr rfl

theorem isSparing_releaseOne (i : SessionId) : IsSparing (releaseOne i) := by
  refine isSparing_modifySession i (φ := fun t => { t with outstanding := t.outstanding - 1 })
    (fun _ => ⟨rfl, rfl⟩) (fun s => ?_) fun _ => rfl
  unfold Store.release?
  split
  · exact .inl rfl
  · split
    · exact .inl rfl
    · exact .inr rfl

theorem isSparing_openSession (k : SessionKey) (waiter : RevisitId) :
    IsSparing (openSession k waiter) := by
  refine isSparing_update (fun s => ?_) fun _ => rfl
  rw [openSession_eq]
  have hjoin (t : Session) : (Session.enroll waiter t).result = t.result ∧
      (Session.enroll waiter t).exceeded = t.exceeded := by
    unfold Session.enroll
    split <;> exact ⟨rfl, rfl⟩
  cases (s.sessionKeys.put k).1.2 with
  | false => exact .of_modify hjoin rfl rfl
  | true =>
    exact .trans (t := { s with sessions := s.sessions.push .fresh }) (.of_push rfl rfl)
      (.of_modify hjoin rfl rfl)

theorem isSparing_visit (k : VisitKey) : IsSparing (visit k) :=
  isSparing_update (fun _ => .of_sessions_eq rfl rfl) fun _ => rfl

theorem isSparing_recordDecomposed : IsSparing recordDecomposed :=
  .of_modify fun _ => .of_store (.of_sessions_eq rfl rfl) rfl

theorem isSparing_addRevisit (r : Revisit) : IsSparing (addRevisit r) :=
  isSparing_update (fun _ => .of_sessions_eq rfl rfl) fun _ => rfl

theorem isSparing_markResumed (i : RevisitId) : IsSparing (markResumed i) := by
  refine isSparing_update? (fun s => ?_) fun _ => rfl
  unfold Store.markResumed?
  split <;> exact .of_sessions_eq rfl rfl

theorem isSparing_spawn (j : Job) : IsSparing (spawn j) := by
  have henqueue : IsSparing (enqueue j) :=
    .bind (isSparing_update (fun _ => .of_sessions_eq rfl rfl) fun _ => rfl) fun _ =>
      .of_modify fun _ => .of_store (.of_sessions_eq rfl rfl) rfl
  unfold spawn
  cases j.session with
  | none => exact henqueue
  | some i => exact .bind (isSparing_retain i) fun _ => henqueue

theorem isSparing_nextResolved : IsSparing nextResolved := by
  refine fun r => .of_get ?_
  split
  · exact .pure (.refl r)
  · next i resolved _ =>
    have h : r.Spares { r with resolved } := .of_store (.of_sessions_eq rfl rfl) rfl
    exact ⟨h.advances, h⟩

theorem isSparing_nextPending (limit : Option Nat) : IsSparing (nextPending limit) := by
  refine fun r => .of_get ?_
  split
  · have h : r.Spares (r.call .limit) :=
      ⟨.of_sessions_eq rfl rfl, [.limit], Array.toList_push, by simp [Call.isSilent]⟩
    exact ⟨h.advances, h⟩
  · have hnext : IsSparing (update (·.nextPending) .pop) := by
      refine isSparing_update (fun s => ?_) fun _ => rfl
      unfold Store.nextPending
      split <;> exact .of_sessions_eq rfl rfl
    have h : r.Spares { r with pops := r.pops + 1 } := .of_store (.of_sessions_eq rfl rfl) rfl
    exact .bind (Q := fun _ r' => r.Spares r') ⟨h.advances, h⟩ fun _ r' hr =>
      (hnext r').mono fun _ _ h' => hr.trans h'

theorem isSparing_reportProgress (interval : Nat) : IsSparing (reportProgress interval) := by
  refine .bind (.of_modify fun _ => .of_store (.of_sessions_eq rfl rfl) rfl) fun _ r => .of_get ?_
  split
  · exact isSparing_note _ r
  · exact .pure (.refl r)

theorem isSparing_sessionResult (i : SessionId) : IsSparing (sessionResult i) := isSparing_ask _ _

theorem isSparing_ofEval (e : Except EvalError α) : IsSparing (ofEval e) := by
  cases e with
  | ok a => exact .pure a
  | error e => cases e <;> exact .throw _

theorem isSparing_askSession (i : RevisitId) (c : Context) (p : Precondition) :
    IsSparing (askSession i c p) := by
  refine .bind (isSparing_openSession _ i) fun (session, created) => ?_
  cases created with
  | true =>
    exact .bind (isSparing_note _) fun _ => .bind (isSparing_spawn _) fun _ =>
      .bind (isSparing_sessionResult session) fun _ => .pure _
  | false =>
    exact .bind (isSparing_note _) fun _ => .bind (isSparing_sessionResult session) fun _ => .pure _

theorem isSparing_fanOut (g : Kripke) (c : Context) (link : Option RevisitId) (history : History)
    (f : Formula) : IsSparing (fanOut g c link history f) :=
  .bind (isSparing_expect _ _) fun _ =>
    .bind (.forM (fun _ => isSparing_spawn _) _) fun _ => .pure _

/-! ### Results and reports -/

theorem through_ask (f : Fault) (query : Store → Option α) :
    r.Through (ask f query) fun a r' => r' = r ∧ query r.store = some a := by
  refine .of_get ?_
  cases query r.store with
  | none => exact .throw _
  | some a => exact .pure ⟨rfl, rfl⟩

/-- A session that is found unsettled is open. -/
theorem through_isSettled (session : Option SessionId) :
    r.Through (isSettled session) fun b r' => r' = r ∧ (b = false → r.Open session) := by
  cases session with
  | none => exact .pure ⟨rfl, fun _ => trivial⟩
  | some i =>
    refine (through_ask _ _).bind fun result r' ⟨hr, hresult⟩ => .pure ⟨hr, fun hb => ?_⟩
    rw [Run.Open, hresult]
    cases result with
    | pending => rfl
    | pass | fail | exceeded => cases hb

/-- Only an open session is given a result. -/
theorem through_complete {result : SessionResult} (ho : r.Open (some i)) (hne : result ≠ .pending)
    (hfit : ∀ t, r.store.session? i = some t → t.TellsApart →
      ({ t with result } : Session).TellsApart) :
    r.Through (complete i result) fun _ _ => True := by
  obtain ⟨t, hi, hp⟩ := Option.map_eq_some_iff.mp ho
  have hrun : complete i result r = .ok () { r with
      store := r.store.modifySession i fun t => { t with result }
      resolved := r.resolved.pushBack i
      calls := r.calls.push (.complete i result true) } := by
    have hfirst : update? (.missingSession i) (·.complete? i result) (.complete i result) r =
        .ok true { r with
          store := r.store.modifySession i fun t => { t with result }
          calls := r.calls.push (.complete i result true) } := by
      simp [update?, Store.complete?, hi, hp, SessionResult.isPending]
    rw [complete, bind_run hfirst]
    rfl
  unfold Run.Through
  rw [hrun]
  refine ⟨⟨rfl, ⟨[.complete i result true], Array.toList_push.symm⟩, fun h => ?_⟩, trivial⟩
  refine h.tell hi hp (fun t => { t with result }) (.complete i result true)
    (hfit t hi (h.sessions i t hi)) (fun k hk => ?_) id (fun k result' => ?_) rfl Array.toList_push
  · cases result with
    | fail x => exact ⟨hk.symm, .inr ⟨x, rfl⟩⟩
    | pending | pass | exceeded x => cases hk
  · constructor
    · intro he
      cases he
      exact ⟨rfl, rfl, hne⟩
    · rintro ⟨rfl, rfl, -⟩
      rfl

theorem through_recordExceeded {x : Counterexample} (ho : r.Open (some i))
    (hx : x.violation.isBudget = true) :
    r.Through (recordExceeded i x) fun _ _ => True := by
  obtain ⟨t, hi, hp⟩ := Option.map_eq_some_iff.mp ho
  have hrun : recordExceeded i x r = .ok () { r with
      store := r.store.modifySession i fun t => { t with exceeded := t.exceeded.or (some x) }
      calls := r.calls.push (.exceed i x) } := by
    simp [recordExceeded, update?, Store.recordExceeded?, hi]
  unfold Run.Through
  rw [hrun]
  refine ⟨⟨rfl, ⟨[.exceed i x], Array.toList_push.symm⟩, fun h => ?_⟩, trivial⟩
  have ht := h.sessions i t hi
  have hsome : t.exceeded.or (some x) ≠ none := by cases t.exceeded <;> simp
  refine h.tell hi hp (fun t => { t with exceeded := t.exceeded.or (some x) }) (.exceed i x)
    ⟨by simp [hp], by simp [hp], fun y hy => ?_, by simp [hp]⟩
    (fun k (hk : i = k) => ⟨hk.symm, .inl hsome⟩) (fun _ => hsome) (fun k result => ?_) rfl
    Array.toList_push
  · cases hm : t.exceeded with
    | none =>
      rw [hm] at hy
      cases hy
      exact hx
    | some y' =>
      rw [hm] at hy
      cases hy
      exact ht.recorded y hm
  · simp only [reduceCtorEq, hp, false_iff, not_and]
    exact fun _ he hne => hne he.symm

/-- A violation is reported only to an open session. -/
theorem through_fail (ho : r.Open session) (x : Counterexample) :
    r.Through (fail session x) fun _ _ => True := by
  cases session with
  | none => exact .throw _
  | some i =>
    rw [fail]
    split
    · next hx =>
      exact (isSparing_note _ r).bind fun _ _ hr => through_recordExceeded (hr.open ho) hx
    · next hx =>
      refine (isSparing_note _ r).bind fun _ _ hr => through_complete (hr.open ho) (by simp) ?_
      intro t _ ht
      refine ⟨fun y hy => ?_, by simp, ht.recorded, by simp⟩
      cases hy
      simpa using hx

/-- A session without further work passes only if it remembers no branch. -/
theorem through_release (session : Option SessionId) :
    r.Through (release session) fun _ _ => True := by
  cases session with
  | none => exact .pure trivial
  | some i =>
    refine (isSparing_releaseOne i r).bind fun last r₁ _ => ?_
    cases last with
    | false => exact .pure trivial
    | true =>
      refine (through_isSettled (some i)).bind fun b r₂ ⟨hr₂, hb⟩ => ?_
      subst hr₂
      cases b with
      | true => exact .pure trivial
      | false =>
        refine (through_ask _ _).bind fun memory r₃ ⟨hr₃, hm⟩ => ?_
        subst hr₃
        have ho := hb rfl
        have hmemory (r' : Run) (hr : r₃.Spares r') (t : Session)
            (ht : r'.store.session? i = some t) : t.exceeded = memory := by
          obtain ⟨x, hx, rfl⟩ := Option.map_eq_some_iff.mp hm
          obtain ⟨y, hy, -, he⟩ := hr.store.kept hx
          rw [← Option.some.inj (hy.symm.trans ht), he]
        cases memory with
        | none =>
          refine (isSparing_note _ r₃).bind fun _ r' hr => ?_
          refine through_complete (hr.open ho) (by simp) ?_
          intro t hi ht
          exact ⟨by simp, by simp, ht.recorded, fun _ => hmemory r' hr t hi⟩
        | some x =>
          refine (isSparing_note _ r₃).bind fun _ r' hr => ?_
          refine through_complete (hr.open ho) (by simp) ?_
          intro t hi ht
          refine ⟨by simp, fun y hy => ?_, ht.recorded, by simp⟩
          cases hy
          exact ht.recorded x (hmemory r' hr t hi)

/-! ### Turns -/

theorem through_react {c : Context} {act : RunM Progress} (ho : r.Open c.session)
    (hact : r.Through act fun _ _ => True) (reaction : Reaction) :
    r.Through (react c act reaction) fun _ _ => True := by
  cases reaction with
  | proceed => exact hact
  | met => exact .pure trivial
  | fail x => exact (through_fail ho x).bind fun _ _ _ => .pure trivial

theorem through_reactTo {c : Context} {p : Precondition} {act : RunM Progress} (i : RevisitId)
    (hact : r.Open c.session → r.Through act fun _ _ => True) (finding : Finding) :
    r.Through (reactTo i c p act finding) fun _ _ => True := by
  refine (through_isSettled c.session).bind fun b r₁ ⟨hr, hb⟩ => ?_
  subst hr
  cases b with
  | true => exact (isSparing_note _ _).bind fun _ _ _ => .pure trivial
  | false => exact through_react (hb rfl) (hact (hb rfl)) _

/-- An obligation is executed on behalf of an open session. -/
theorem through_execute {c : Context} (ho : r.Open c.session) (link : Option RevisitId)
    (o : Obligation) : r.Through (execute g c link o) fun _ _ => True := by
  have hspawn (j : Job) (r : Run) :
      r.Through (do spawn j; return Progress.waiting) fun _ _ => True :=
    (isSparing_spawn j r).bind fun _ _ _ => .pure trivial
  induction o generalizing r with
  | here f => exact hspawn _ r
  | successors f | step f => exact (isSparing_fanOut _ _ _ _ _ r).mono fun _ _ _ => trivial
  | constrain f w =>
    rw [execute]
    split
    · exact hspawn _ r
    · exact .throw _
  | revisit o p ih =>
    rw [execute]
    split
    · refine (isSparing_expect _ _ r).bind fun node r₁ hr₁ => ?_
      refine (isSparing_ofEval _ r₁).bind fun judgement r₂ hr₂ => ?_
      have ho₂ := (hr₁.trans hr₂).open ho
      exact through_react ho₂ (ih ho₂) _
    · refine (isSparing_addRevisit _ r).bind fun i r₁ hr₁ => ?_
      split
      · exact hspawn _ r₁
      · refine (isSparing_askSession i c p r₁).bind fun finding r₂ hr₂ => ?_
        cases finding with
        | some finding => exact through_reactTo i ih finding
        | none =>
          cases c.session with
          | none => exact .pure trivial
          | some owner => exact (isSparing_retain owner r₂).bind fun _ _ _ => .pure trivial

theorem through_resumeChain (n : Nat) (link : Option RevisitId) :
    r.Through (resumeChain g n link) fun _ _ => True := by
  induction n generalizing r link with
  | zero =>
    cases link with
    | none => exact .pure trivial
    | some i => exact .throw _
  | succ n ih =>
    cases link with
    | none => exact .pure trivial
    | some i =>
      rw [resumeChain]
      refine (isSparing_markResumed i r).bind fun first r₁ _ => ?_
      cases first with
      | false => exact (isSparing_note _ r₁).mono fun _ _ _ => trivial
      | true =>
        refine (isSparing_ask _ _ r₁).bind fun v r₂ _ => ?_
        refine (through_isSettled v.session).bind fun b r₃ hopen => ?_
        obtain ⟨hr, hb⟩ := hopen
        subst hr
        cases b with
        | true => exact .pure trivial
        | false =>
          refine (isSparing_note _ r₃).bind fun _ r₄ hr₄ => ?_
          refine (through_execute (hr₄.open (hb rfl)) _ _).bind fun progress r₅ _ => ?_
          split
          · exact ih v.parent
          · exact .pure trivial

theorem through_carryOut {act : RunM Progress} (link : Option RevisitId)
    (hact : r.Through act fun _ _ => True) : r.Through (carryOut g link act) fun _ _ => True := by
  refine hact.bind fun progress r₁ _ => ?_
  split
  · exact through_resumeChain _ link
  · exact .pure trivial

theorem through_process (j : Job) : r.Through (process g j) fun _ _ => True := by
  rw [process]
  refine (through_isSettled j.session).bind fun b r₁ hopen => ?_
  obtain ⟨hr, hb⟩ := hopen
  subst hr
  cases b with
  | true => exact (isSparing_note _ r₁).bind fun _ _ _ => through_release j.session
  | false =>
    refine (isSparing_visit _ r₁).bind fun seen r₂ hr₂ => ?_
    cases seen with
    | true => exact (isSparing_note _ r₂).bind fun _ _ _ => through_release j.session
    | false =>
      refine (isSparing_recordDecomposed r₂).bind fun _ r₃ hr₃ => ?_
      refine (isSparing_expect _ _ r₃).bind fun node r₄ hr₄ => ?_
      refine (isSparing_note _ r₄).bind fun _ r₅ hr₅ => ?_
      refine (isSparing_ofEval _ r₅).bind fun u r₆ hr₆ => ?_
      have ho := (hr₂.trans (hr₃.trans (hr₄.trans (hr₅.trans hr₆)))).open (hb rfl)
      cases u with
      | pass => exact (through_resumeChain _ _).bind fun _ _ _ => through_release j.session
      | fail v => exact (through_fail ho _).bind fun _ _ _ => through_release j.session
      | obligation o =>
        exact (through_carryOut j.link (through_execute ho j.link o)).bind fun _ _ _ =>
          through_release j.session

theorem through_tell (result : SessionResult) (i : RevisitId) :
    r.Through (tell g result i) fun _ _ => True := by
  refine (isSparing_ask _ _ r).bind fun v r₁ _ => ?_
  cases Finding.ofResult? result with
  | none => exact through_release v.session
  | some finding =>
    exact (through_carryOut v.parent (through_reactTo i (through_execute · _ _) finding)).bind
      fun _ _ _ => through_release v.session

theorem through_notify (i : SessionId) : r.Through (notify g i) fun _ _ => True := by
  refine (isSparing_sessionResult i r).bind fun result r₁ _ => ?_
  refine (isSparing_takeWaiters i r₁).bind fun waiters r₂ _ => ?_
  exact .forM (fun w _ => through_tell result w) waiters

theorem through_turn (settings : Settings) : r.Through (turn g settings) fun _ _ => True := by
  refine (isSparing_nextResolved r).bind fun next r₁ _ => ?_
  cases next with
  | some i => exact (through_notify i).bind fun _ _ _ => .pure trivial
  | none =>
    refine (isSparing_nextPending _ r₁).bind fun next r₂ _ => ?_
    cases next with
    | none => exact .pure trivial
    | some i =>
      refine (isSparing_ask _ _ r₂).bind fun j r₃ _ => ?_
      refine (through_process j).bind fun _ r₄ _ => ?_
      exact (isSparing_reportProgress _ r₄).bind fun _ _ _ => .pure trivial

theorem through_turns (settings : Settings) (n : Nat) :
    r.Through (turns g settings n) fun _ _ => True := by
  induction n generalizing r with
  | zero => exact .throw _
  | succ n ih =>
    refine (through_turn settings).bind fun b r₁ _ => ?_
    cases b with
    | true => exact ih
    | false => exact .pure trivial

theorem through_seed (f : Formula) : r.Through (seed g f) fun _ _ => True := by
  have h : IsSparing (seed g f) := .bind (.forM (fun _ => isSparing_spawn _) _) fun _ =>
    .of_modify fun _ => .of_store (.of_sessions_eq rfl rfl) rfl
  exact (h r).mono fun _ _ _ => trivial

/-- Turns, and then a look at the sessions that are left. -/
theorem through_finish (settings : Settings) (n : Nat) :
    r.Through (do
      turns g settings n
      let pending := (← get).store.pendingSessions
      if 0 < pending then error (.stalled pending)) fun _ _ => True := by
  refine (through_turns settings n).bind fun _ r₁ _ => .of_get ?_
  dsimp only
  split
  · exact .throw _
  · exact .pure trivial

end RunM

/-! ### Checks -/

theorem Run.Turns.advances {k : Nat} (h : Run.Turns g settings k r r₁) : r.Advances r₁ := by
  induction h with
  | zero r => exact .refl r
  | succ first _ ih => exact ((RunM.through_turn settings).ok first).trans ih

/-- Of two numbers of turns, the larger goes on from the smaller. -/
theorem Run.Turns.of_add {k n : Nat} (h : Run.Turns g settings k r r₁)
    (h' : Run.Turns g settings (k + n) r r₂) : Run.Turns g settings n r₁ r₂ := by
  induction h with
  | zero r => rwa [Nat.zero_add] at h'
  | @succ k r r₃ r₄ first _ ih =>
    rw [Nat.add_right_comm] at h'
    cases h' with
    | succ first' rest' =>
      cases first.symm.trans first'
      exact ih rest'

theorem Run.spares_announce (r : Run) (g : Kripke) (index : Nat) (f : Formula) :
    r.Spares (r.announce g index f) := by
  unfold Run.announce
  dsimp only
  split <;> exact .of_store (.of_sessions_eq rfl rfl) rfl

/-- Turns, requirements and checks end after the run, with an answer or without. -/
def Run.AdvancesTo {ε α : Type} (r : Run) : EStateM.Result ε Run α → Prop
  | .ok _ r' | .error _ r' => r.Advances r'

theorem Run.Through.advancesTo {ε α : Type} {m : EStateM ε Run α} {Q : α → Run → Prop}
    (h : r.Through m Q) : r.AdvancesTo (m r) := by
  unfold Run.Through at h
  split at h <;> simp_all [Run.AdvancesTo]

theorem Run.Advances.advancesTo {ε α : Type} {x : EStateM.Result ε Run α} (h : r.Advances r₁)
    (hx : r₁.AdvancesTo x) : r.AdvancesTo x := by
  cases x <;> exact h.trans hx

/-- What comes after `r` in the search for a requirement comes after it in its check. -/
theorem advancesTo_requirement {r₀ : Run} {index : Nat} {f : Formula}
    (h : r.AdvancesTo (RunM.search g settings f.universal (r₀.announce g index f))) :
    r.AdvancesTo (checkRequirement g settings index f r₀) := by
  unfold checkRequirement
  cases hs : RunM.search g settings f.universal (r₀.announce g index f) with
  | ok a r₁ =>
    rw [hs] at h
    exact h
  | error e r₁ =>
    rw [hs] at h
    cases e with
    | refuted x => exact Run.Advances.trans h (r₁.spares_note _).advances
    | stop e => exact h

theorem through_requirement (index : Nat) (f : Formula) :
    r.Through (checkRequirement g settings index f) fun _ _ => True := by
  have hsearch : (r.announce g index f).AdvancesTo
      (RunM.search g settings f.universal (r.announce g index f)) := by
    rw [RunM.search_eq]
    exact ((RunM.through_seed _).bind fun _ _ _ => RunM.through_finish settings _).advancesTo
  have h := advancesTo_requirement ((r.spares_announce g index f).advances.advancesTo hsearch)
  unfold Run.Through
  cases hr : checkRequirement g settings index f r <;> rw [hr] at h
  · exact ⟨h, trivial⟩
  · exact h

theorem through_checkFrom (index : Nat) (es : List Formula) :
    r.Through (checkFrom g settings index es) fun _ _ => True := by
  induction es generalizing r index with
  | nil => exact .pure trivial
  | cons f es ih => exact (through_requirement index f).bind fun _ _ _ => ih (index + 1)

/-- Earlier requirements come first, and the check goes on with the others. -/
theorem advancesTo_checkFrom {r₀ r' : Run} {index : Nat} {f : Formula} {es es' : List Formula}
    (hok : checkFrom g settings index es r' = .ok () r₀)
    (h : r.AdvancesTo (checkRequirement g settings (index + es.length) f r₀)) :
    r.AdvancesTo (checkFrom g settings index (es ++ f :: es') r') := by
  rw [checkFrom_append, hok]
  dsimp only
  rw [checkFrom_cons]
  cases hr : checkRequirement g settings (index + es.length) f r₀ <;> rw [hr] at h
  · exact Run.Advances.advancesTo h (through_checkFrom _ es').advancesTo
  · exact h

/-- Turns that were made are part of a search, which goes on from there. -/
theorem Run.Turns.advancesTo_search {r₀ : Run} {k : Nat} {f : Formula}
    (h : Run.Turns g settings k r₁ r) (hseed : RunM.seed g f r₀ = .ok () r₁)
    (hk : k ≤ g.turnBound f) : r.AdvancesTo (RunM.search g settings f r₀) := by
  rw [RunM.search_eq, RunM.bind_run hseed]
  generalize g.turnBound f = n at hk
  obtain ⟨m, rfl⟩ := Nat.exists_eq_add_of_le hk
  -- the turns that are left are made from `r`
  have hfinish := (RunM.through_finish (g := g) (r := r) settings m).advancesTo
  change r.AdvancesTo (EStateM.bind _ _ _) at hfinish ⊢
  rw [EStateM.bind, ← h.turns_add] at hfinish
  rw [EStateM.bind]
  exact hfinish

theorem Run.tellsApart_start (store : Store) : (Run.start store.reset).TellsApart := by
  have hnone (i : SessionId) : (Run.start store.reset).store.session? i = none := by
    obtain ⟨_ | n⟩ := i <;> rfl
  refine ⟨fun i t ht => ?_, fun call hc i hr => ?_, fun i result => ?_⟩
  · rw [hnone] at ht
    cases ht
  · obtain rfl : call = .reset := List.mem_singleton.mp hc
    cases hr
  · rw [Store.sessionResult?, hnone]
    simp [Run.start]

namespace Checker

variable {c : Checker} {spec : Specification} {index k : Nat}

/-- The check comes through the run, at the start of an iteration or in the end. -/
def Reaches (c : Checker) (spec : Specification) (r : Run) : Prop :=
  (∃ index k, c.Iteration spec index k r) ∨ r = c.final spec

/-- The check comes through the first run, and then through the second. -/
inductive Passes (c : Checker) (spec : Specification) : Run → Run → Prop where
  | turns {index k n : Nat} {r r' : Run} (h : c.Iteration spec index k r)
      (h' : c.Iteration spec index (k + n) r') : Passes c spec r r'
  | requirements {index index' k k' : Nat} {r r' : Run} (hlt : index < index')
      (h : c.Iteration spec index k r) (h' : c.Iteration spec index' k' r') : Passes c spec r r'
  | ending {index k : Nat} {r : Run} (h : c.Iteration spec index k r) :
      Passes c spec r (c.final spec)

/-- The iterations of a requirement come after the requirements before it. -/
theorem Iteration.advances (h : c.Iteration spec index k r) {r₀ : Run}
    (hr : checkFrom c.graph c.settings 0 (spec.take index) (.start c.store.reset) = .ok () r₀) :
    r₀.Advances r := by
  obtain ⟨f, r₀', r₁, -, hok, hseed, hturns⟩ := h
  cases hr.symm.trans hok
  exact ((r₀.spares_announce c.graph index f).advances.trans
    ((RunM.through_seed _).ok hseed)).trans hturns.advances

theorem Iteration.of_take (h : c.Iteration spec index k r) {n : Nat} (hn : index < n) :
    c.Iteration (spec.take n) index k r := by
  obtain ⟨f, r₀, r₁, hf, hok, hseed, hturns⟩ := h
  refine ⟨f, r₀, r₁, ?_, ?_, hseed, hturns⟩
  · rw [List.getElem?_take_of_lt hn, hf]
  · rw [List.take_take, Nat.min_eq_left (Nat.le_of_lt hn)]
    exact hok

/-- What is left of the check comes after an iteration. -/
theorem Iteration.advancesTo (hl : c.settings.popLimit = none) (h : c.Iteration spec index k r) :
    r.AdvancesTo (checkFrom c.graph c.settings 0 spec (.start c.store.reset)) := by
  obtain ⟨f, r₀, r₁, hf, hok, hseed, hturns⟩ := id h
  have hlt : index < spec.length := (List.getElem?_eq_some_iff.mp hf).1
  have hspec : spec = spec.take index ++ f :: spec.drop (index + 1) := by
    rw [← (List.getElem?_eq_some_iff.mp hf).2, ← List.drop_eq_getElem_cons hlt,
      List.take_append_drop]
  have hsearch := hturns.advancesTo_search hseed (Nat.le_of_lt (h.lt_turnBound hl hf))
  rw [hspec]
  refine advancesTo_checkFrom hok (advancesTo_requirement ?_)
  rwa [List.length_take, Nat.min_eq_left (Nat.le_of_lt hlt), Nat.zero_add]

theorem advances_final
    (h : r.AdvancesTo (checkFrom c.graph c.settings 0 spec (.start c.store.reset))) :
    r.Advances (c.final spec) := by
  rw [final, checkAll_eq]
  cases hc : checkFrom c.graph c.settings 0 spec (.start c.store.reset) <;> rw [hc] at h
  · exact Run.Advances.trans h (Run.spares_note _ _).advances
  · exact h

theorem Passes.advances (hl : c.settings.popLimit = none) (h : c.Passes spec r r₁) :
    r.Advances r₁ := by
  cases h with
  | turns h h' =>
    obtain ⟨f, r₂, r₃, hf, hok, hseed, hturns⟩ := h
    obtain ⟨f', r₂', r₃', hf', hok', hseed', hturns'⟩ := h'
    cases hf.symm.trans hf'
    cases hok.symm.trans hok'
    cases hseed.symm.trans hseed'
    exact (hturns.of_add hturns').advances
  | requirements hlt h h' =>
    obtain ⟨-, r₀, -, -, hok, -, -⟩ := id h'
    have := (h.of_take hlt).advancesTo hl
    rw [hok] at this
    exact Run.Advances.trans this (h'.advances hok)
  | ending h => exact advances_final (h.advancesTo hl)

theorem Reaches.tellsApart (h : c.Reaches spec r) : r.TellsApart := by
  have hstart := Run.tellsApart_start c.store
  rcases h with ⟨index, k, h⟩ | rfl
  · obtain ⟨-, r₀, -, -, hok, -, -⟩ := id h
    exact (((through_checkFrom _ _).ok hok).trans (h.advances hok)).tellsApart hstart
  · exact (advances_final (through_checkFrom 0 spec).advancesTo).tellsApart hstart

/-- In every run that a check comes through, with either order, sessions tell violations of truth
from violations of the budget: one has failed by a violation of truth, one that exceeded its window
tells of the budget, and one that remembers a branch which left its window has not passed, nor has
any to which a violation was ever reported. A result that a session was given is never changed. -/
theorem tellsApart_of_reaches (c : Checker) (spec : Specification)
    (hl : c.settings.popLimit = none) :
    (∀ r, c.Reaches spec r → r.TellsApart ∧ ∀ i, r.store.sessionResult? i = some .pass →
      ∀ call ∈ r.calls.toList, ¬ call.Reports i) ∧
    ∀ r r', c.Passes spec r r' → r.calls.toList <+: r'.calls.toList ∧
      ∀ i result, r.store.sessionResult? i = some result → result ≠ .pending →
        r'.store.sessionResult? i = some result := by
  refine ⟨fun r h => ⟨h.tellsApart, fun i hi => h.tellsApart.unreported hi⟩, fun r r' h => ?_⟩
  have hadv := h.advances hl
  have hr : r.TellsApart := by
    cases h with
    | turns h | requirements _ h | ending h => exact Reaches.tellsApart (.inl ⟨_, _, h⟩)
  refine ⟨hadv.calls, fun i result hi hne => ?_⟩
  -- the call that gave the result is still there, and it tells what the result is
  have hcall := (hr.completed i result).mpr ⟨hi, hne⟩
  exact (((hadv.tellsApart hr).completed i result).mp (hadv.calls.mem hcall)).1

/-- Nothing is ever spent on the loop, so a window that opens later is never reached. -/
theorem tellsApart_of_reaches_loop :
    let w := Window.ofList [⟨.time, .ge, ⟨1, ⟨.time, .pico⟩⟩⟩]
    let spec : Specification := [.not (.within (.next .all .falsum) w)]
    ∃ x, ((small .loop .depthFirst).final spec).store.sessionResult? ⟨1⟩ = some (.exceeded x) ∧
      x.violation.isBudget = true := by
  intro w spec
  let x : Counterexample := ⟨.unreached ⟨.time, .ge, ⟨1, ⟨.time, .pico⟩⟩⟩ .zero ⟨0⟩, [⟨0⟩, ⟨0⟩]⟩
  have hx : ((small .loop .depthFirst).final spec).store.sessionResult? ⟨1⟩ =
      some (.exceeded x) := by decide +kernel
  have h := ((tellsApart_of_reaches (small .loop .depthFirst) spec rfl).1 _ (.inr rfl)).1
  obtain ⟨t, ht, hr⟩ := Option.map_eq_some_iff.mp hx
  exact ⟨x, hx, (h.sessions ⟨1⟩ t ht).exceeded x hr⟩

end Checker

end CostCTL
