import CostCTL.Proofs.Continuation
import CostCTL.Proofs.Histories
import CostCTL.Proofs.Tasks

/-!
# Revisits are resumed once

What a run asked of its store and what it told are written down, and so is every resumption of a
revisit, in both lists. The two agree with the records: a revisit that is marked as resumed was
resumed by one call, and one notice tells of it (`Run.Tallied`). No revisit is resumed late, when
its session has its result already, because the work that resumes it is for the same session. Calls
and notices come before the obligation of the revisit is executed. That it is executed, and once, is
read off the tasks that the check performs (`Revisit.ExecutedAt`).

Together with what is left of a search depth first, this says that no continuation is lost
(`Checker.resumed_once`).
-/

namespace CostCTL

variable {g : Kripke} {settings : Settings} {r r₁ r₂ : Run}

/-- The call resumes the revisit, for the first time. -/
def Call.resumes (i : RevisitId) : Call → Bool
  | .resume k first => k = i && first
  | _ => false

/-- The notice tells that the revisit is resumed, to go on with its obligation. -/
def Notice.resumes (i : RevisitId) : Notice → Bool
  | .resuming k _ => k = i
  | _ => false

/-- The call neither suspends nor resumes a revisit. -/
def Call.isAside : Call → Bool
  | .suspend .. | .resume _ true => false
  | _ => true

/-- The notice does not tell that a revisit is resumed. -/
def Notice.isAside : Notice → Bool
  | .resuming .. => false
  | _ => true

theorem Call.resumes_of_isAside {call : Call} (h : call.isAside = true) (i : RevisitId) :
    call.resumes i = false := by
  cases call with
  | resume k first =>
    cases first with
    | true => cases h
    | false => simp [resumes]
  | _ => rfl

theorem Notice.resumes_of_isAside {n : Notice} (h : n.isAside = true) (i : RevisitId) :
    n.resumes i = false := by
  cases n with
  | resuming => cases h
  | _ => rfl

def Store.isResumed (s : Store) (i : RevisitId) : Bool := (s.revisitRecord? i).any (·.resumed)

/-- Calls and notices agree with the records of revisits. -/
structure Run.Tallied (r : Run) : Prop where
  suspended : ∀ i v, .suspend i v ∈ r.calls.toList → r.store.revisit? i = some v
  calls : ∀ i, r.calls.toList.countP (·.resumes i) = (r.store.isResumed i).toNat
  notices : ∀ i, r.notices.toList.countP (·.resumes i) = (r.store.isResumed i).toNat

/-- No revisit is resumed. -/
structure Run.Defers (r r' : Run) : Prop where
  remembers : r.store.Remembers r'.store
  resumed : ∀ i, r'.store.isResumed i = r.store.isResumed i
  suspended : ∀ i v, .suspend i v ∈ r'.calls.toList →
    .suspend i v ∈ r.calls.toList ∨ r'.store.revisit? i = some v
  calls : ∀ i, r'.calls.toList.countP (·.resumes i) = r.calls.toList.countP (·.resumes i)
  notices : ∀ i, r'.notices.toList.countP (·.resumes i) = r.notices.toList.countP (·.resumes i)

namespace Run

theorem Tallied.defers (h : r.Tallied) (hd : r.Defers r₁) : r₁.Tallied := by
  refine ⟨fun i v hi => ?_, fun i => ?_, fun i => ?_⟩
  · exact (hd.suspended i v hi).elim (fun hi => hd.remembers i v (h.suspended i v hi)) id
  · rw [hd.calls, hd.resumed, h.calls]
  · rw [hd.notices, hd.resumed, h.notices]

theorem Defers.trans (h : r.Defers r₁) (h' : r₁.Defers r₂) : r.Defers r₂ where
  remembers i v hi := h'.remembers i v (h.remembers i v hi)
  resumed i := (h'.resumed i).trans (h.resumed i)
  suspended i v hi := by
    rcases h'.suspended i v hi with hi | hi
    · exact (h.suspended i v hi).imp_right (h'.remembers i v)
    · exact .inr hi
  calls i := (h'.calls i).trans (h.calls i)
  notices i := (h'.notices i).trans (h.notices i)

/-- The records of revisits stay, and neither calls nor notices are about them. -/
theorem Defers.of_record (calls : List Call) (notices : List Notice)
    (hrec : ∀ i, r₁.store.revisitRecord? i = r.store.revisitRecord? i)
    (hc : r₁.calls.toList = r.calls.toList ++ calls) (hcall : ∀ c ∈ calls, c.isAside = true)
    (hn : r₁.notices.toList = r.notices.toList ++ notices)
    (hnote : ∀ n ∈ notices, n.isAside = true) : r.Defers r₁ := by
  refine ⟨fun i v hi => ?_, fun i => ?_, fun i v hi => .inl ?_, fun i => ?_, fun i => ?_⟩
  · rwa [Store.revisit?, hrec]
  · rw [Store.isResumed, Store.isResumed, hrec]
  · rw [hc, List.mem_append] at hi
    exact hi.resolve_right fun hi => by cases hcall _ hi
  · rw [hc, List.countP_append, Nat.add_eq_left, List.countP_eq_zero]
    exact fun c hm => by simp [Call.resumes_of_isAside (hcall c hm)]
  · rw [hn, List.countP_append, Nat.add_eq_left, List.countP_eq_zero]
    exact fun n hm => by simp [Notice.resumes_of_isAside (hnote n hm)]

/-- With a call and without notices. -/
theorem Defers.of_call {call : Call}
    (hrec : ∀ i, r₁.store.revisitRecord? i = r.store.revisitRecord? i)
    (hc : r₁.calls = r.calls.push call) (hcall : call.isAside = true)
    (hn : r₁.notices = r.notices) : r.Defers r₁ :=
  .of_record [call] [] hrec (by simp [hc]) (by simpa) (by simp [hn]) (by simp)

/-- Without calls and notices. -/
theorem Defers.of_store (hv : r₁.store.revisits = r.store.revisits) (hc : r₁.calls = r.calls)
    (hn : r₁.notices = r.notices) : r.Defers r₁ :=
  .of_record [] [] (fun _ => by rw [Store.revisitRecord?_eq, hv,
    Store.revisitRecord?_eq]) (by simp [hc]) (by simp) (by simp [hn]) (by simp)

theorem Defers.refl (r : Run) : r.Defers r := .of_store rfl rfl rfl

theorem defers_note (r : Run) {n : Notice} (hn : n.isAside = true) : r.Defers (r.note n) :=
  .of_record [] [n] (fun _ => rfl) (by simp [note]) (by simp)
    (by simp [note]) (by simpa)

end Run

/-! ### Operations that resume no revisit -/

section Computations

variable {ε α β : Type} {m : EStateM ε Run α}

/-- If the computation comes to its end, no revisit is resumed on the way. -/
def IsDeferring (m : EStateM ε Run α) : Prop := ∀ (r : Run) a r', m r = .ok a r' → r.Defers r'

theorem exists_of_bind_run {k : α → EStateM ε Run β} {b : β} (h : (m >>= k) r = .ok b r₁) :
    ∃ a r', m r = .ok a r' ∧ k a r' = .ok b r₁ := by
  change EStateM.bind m k r = _ at h
  rw [EStateM.bind] at h
  cases hm : m r with
  | ok a r' =>
    rw [hm] at h
    exact ⟨a, r', rfl, h⟩
  | error e r' =>
    rw [hm] at h
    cases h

namespace IsDeferring

theorem pure (a : α) : IsDeferring (Pure.pure a : EStateM ε Run α) := by
  intro r a r' h
  cases h
  exact .refl r

theorem throw (e : ε) : IsDeferring (MonadExcept.throw e : EStateM ε Run α) := by
  intro r a r' h
  cases h

theorem of_modify {f : Run → Run} (hf : ∀ r : Run, r.Defers (f r)) :
    IsDeferring (modify f : EStateM ε Run PUnit) := by
  intro r a r' h
  cases h
  exact hf r

theorem of_get {k : Run → EStateM ε Run α} (hk : ∀ r, IsDeferring (k r)) :
    IsDeferring (get >>= k) := fun r => hk r r

theorem bind {k : α → EStateM ε Run β} (hm : IsDeferring m) (hk : ∀ a, IsDeferring (k a)) :
    IsDeferring (m >>= k) := by
  intro r b r' h
  obtain ⟨a, r₁, hmr, hkr⟩ := exists_of_bind_run h
  exact (hm r a r₁ hmr).trans (hk a r₁ b r' hkr)

theorem forM {γ : Type} {f : γ → EStateM ε Run PUnit} (hf : ∀ a, IsDeferring (f a)) (l : List γ) :
    IsDeferring (l.forM f) := by
  induction l with
  | nil => exact .pure _
  | cons a l ih => exact .bind (hf a) fun _ => ih

end IsDeferring

end Computations

namespace RunM

variable {α : Type}

theorem isDeferring_note {n : Notice} (hn : n.isAside = true) : IsDeferring (note n) :=
  .of_modify (·.defers_note hn)

theorem isDeferring_expect (f : Fault) (a : Option α) : IsDeferring (expect f a) := by
  cases a with
  | none => exact .throw _
  | some a => exact .pure a

theorem isDeferring_ask (f : Fault) (query : Store → Option α) : IsDeferring (ask f query) :=
  .of_get fun r => isDeferring_expect f (query r.store)

theorem isDeferring_update {op : Store → α × Store} {call : α → Call}
    (hop : ∀ s, (op s).2.revisits = s.revisits) (hc : ∀ a, (call a).isAside = true) :
    IsDeferring (update op call) := by
  intro r a r' h
  cases h
  exact .of_call (fun i => by rw [Store.revisitRecord?_eq, hop, Store.revisitRecord?_eq]) rfl (hc _)
    rfl

theorem isDeferring_update? {f : Fault} {op : Store → Option α × Store} {call : α → Call}
    (hop : ∀ s, (op s).2.revisits = s.revisits) (hc : ∀ a, (call a).isAside = true) :
    IsDeferring (update? f op call) := by
  intro r a r' h
  have hs := hop r.store
  rcases hr : op r.store with ⟨_ | a, s⟩ <;> rw [hr] at hs <;> simp only [update?, hr] at h
  · cases h
  · cases h
    exact .of_call (fun i => by rw [Store.revisitRecord?_eq, hs, Store.revisitRecord?_eq]) rfl
      (hc _) rfl

theorem isDeferring_takeWaiters (i : SessionId) : IsDeferring (takeWaiters i) := by
  refine isDeferring_update? (fun s => ?_) fun _ => rfl
  unfold Store.takeWaiters?
  split <;> rfl

theorem isDeferring_retain (i : SessionId) : IsDeferring (retain i) := by
  refine isDeferring_update? (fun s => ?_) fun _ => rfl
  unfold Store.retain?
  split <;> rfl

theorem isDeferring_releaseOne (i : SessionId) : IsDeferring (releaseOne i) := by
  refine isDeferring_update? (fun s => ?_) fun _ => rfl
  unfold Store.release?
  split
  · rfl
  · split <;> rfl

theorem isDeferring_recordExceeded (i : SessionId) (x : Counterexample) :
    IsDeferring (recordExceeded i x) := by
  refine isDeferring_update? (fun s => ?_) fun _ => rfl
  unfold Store.recordExceeded?
  split <;> rfl

theorem isDeferring_complete (i : SessionId) (result : SessionResult) :
    IsDeferring (complete i result) := by
  refine .bind (isDeferring_update? (fun s => ?_) fun _ => rfl) fun first => ?_
  · unfold Store.complete?
    split
    · rfl
    · split <;> rfl
  · cases first with
    | true => exact .of_modify fun _ => .of_store rfl rfl rfl
    | false => exact isDeferring_note rfl

theorem isDeferring_isSettled (session : Option SessionId) : IsDeferring (isSettled session) := by
  cases session with
  | none => exact .pure _
  | some i => exact .bind (isDeferring_ask _ _) fun _ => .pure _

theorem isDeferring_nextResolved : IsDeferring nextResolved := by
  intro r a r' h
  rw [nextResolved, get_bind] at h
  cases hp : r.resolved.popFront? with
  | none =>
    rw [hp] at h
    cases h
    exact .refl r
  | some next =>
    rw [hp] at h
    cases h
    exact .of_store rfl rfl rfl

theorem isDeferring_nextPending (limit : Option Nat) : IsDeferring (nextPending limit) := by
  refine .of_get fun r => ?_
  split
  · exact .bind (.of_modify fun _ => .of_call (fun _ => rfl) rfl rfl rfl) fun _ => .pure _
  · refine .bind (.of_modify fun _ => .of_store rfl rfl rfl) fun _ => ?_
    refine isDeferring_update (fun s => ?_) fun _ => rfl
    unfold Store.nextPending
    split <;> rfl

theorem isDeferring_reportProgress (interval : Nat) : IsDeferring (reportProgress interval) := by
  refine .bind (.of_modify fun _ => .of_store rfl rfl rfl) fun _ => .of_get fun r => ?_
  split
  · exact isDeferring_note rfl
  · exact .pure _

theorem isDeferring_spawn (j : Job) : IsDeferring (spawn j) := by
  have henqueue : IsDeferring (enqueue j) :=
    .bind (isDeferring_update (fun _ => rfl) fun _ => rfl) fun _ =>
      .of_modify fun _ => .of_store rfl rfl rfl
  unfold spawn
  cases j.session with
  | none => exact henqueue
  | some i => exact .bind (isDeferring_retain i) fun _ => henqueue

theorem isDeferring_fail (session : Option SessionId) (x : Counterexample) :
    IsDeferring (fail session x) := by
  cases session with
  | none => exact .throw _
  | some i =>
    rw [fail]
    split
    · exact .bind (isDeferring_note rfl) fun _ => isDeferring_recordExceeded i x
    · exact .bind (isDeferring_note rfl) fun _ => isDeferring_complete i _

theorem isDeferring_release (session : Option SessionId) : IsDeferring (release session) := by
  cases session with
  | none => exact .pure _
  | some i =>
    refine .bind (isDeferring_releaseOne i) fun last => ?_
    cases last with
    | false => exact .pure _
    | true =>
      refine .bind (isDeferring_isSettled (some i)) fun settled => ?_
      cases settled with
      | true => exact .pure _
      | false =>
        refine .bind (isDeferring_ask _ _) fun memory => ?_
        cases memory with
        | none => exact .bind (isDeferring_note rfl) fun _ => isDeferring_complete i _
        | some x => exact .bind (isDeferring_note rfl) fun _ => isDeferring_complete i _

/-- A revisit that is added is not resumed. -/
theorem isDeferring_addRevisit (v : Revisit) : IsDeferring (addRevisit v) := by
  intro r a r' h
  cases h
  have hiff {i : RevisitId} {e : RevisitEntry} :=
    Store.revisitRecord?_push (s := r.store) (r := ⟨v, false⟩) (i := i) (x := e)
  refine ⟨fun i w hi => ?_, fun i => ?_, fun i w hi => ?_, fun i => ?_, fun i => rfl⟩
  · obtain ⟨e, he, rfl⟩ := Option.map_eq_some_iff.mp hi
    exact Option.map_eq_some_iff.mpr ⟨e, hiff.mpr (.inl he), rfl⟩
  · rw [Bool.eq_iff_iff, Store.isResumed, Store.isResumed, Option.any_eq_true, Option.any_eq_true]
    constructor
    · rintro ⟨e, he, htrue⟩
      rcases hiff.mp he with he | ⟨-, rfl⟩
      · exact ⟨e, he, htrue⟩
      · cases htrue
    · rintro ⟨e, he, htrue⟩
      exact ⟨e, hiff.mpr (.inl he), htrue⟩
  · rw [Array.toList_push, List.mem_append, List.mem_singleton] at hi
    refine hi.imp_right fun hi => ?_
    cases hi
    exact Option.map_eq_some_iff.mpr ⟨_, hiff.mpr (.inr ⟨rfl, rfl⟩), rfl⟩
  · simp [Call.resumes]

theorem isDeferring_ofEval (e : Except EvalError α) : IsDeferring (ofEval e) := by
  cases e with
  | ok a => exact .pure a
  | error e => cases e <;> exact .throw _

theorem isDeferring_fanOut (g : Kripke) (c : Context) (link : Option RevisitId) (history : History)
    (f : Formula) : IsDeferring (fanOut g c link history f) :=
  .bind (isDeferring_expect _ _) fun _ =>
    .bind (.forM (fun _ => isDeferring_spawn _) _) fun _ => .pure _

theorem isDeferring_react {c : Context} {act : RunM Progress} (hact : IsDeferring act)
    (reaction : Reaction) : IsDeferring (react c act reaction) := by
  cases reaction with
  | proceed => exact hact
  | met => exact .pure _
  | fail x => exact .bind (isDeferring_fail _ x) fun _ => .pure _

theorem isDeferring_reactTo {c : Context} {p : Precondition} {act : RunM Progress} (i : RevisitId)
    (hact : IsDeferring act) (finding : Finding) : IsDeferring (reactTo i c p act finding) := by
  refine .bind (isDeferring_isSettled _) fun settled => ?_
  cases settled with
  | true => exact .bind (isDeferring_note rfl) fun _ => .pure _
  | false => exact isDeferring_react hact _

theorem isDeferring_askSession (i : RevisitId) (c : Context) (p : Precondition) :
    IsDeferring (askSession i c p) := by
  refine .bind (isDeferring_update (fun s => by rw [openSession_eq]) fun _ => rfl) fun opened => ?_
  have hresult : IsDeferring (do return Finding.ofResult? (← sessionResult opened.1)) :=
    .bind (isDeferring_ask _ _) fun _ => .pure _
  obtain ⟨session, created⟩ := opened
  cases created with
  | true =>
    exact .bind (isDeferring_note rfl) fun _ => .bind (isDeferring_spawn _) fun _ => hresult
  | false => exact .bind (isDeferring_note rfl) fun _ => hresult

theorem isDeferring_execute (g : Kripke) (c : Context) (link : Option RevisitId) (o : Obligation) :
    IsDeferring (execute g c link o) := by
  have hspawn (j : Job) : IsDeferring (do spawn j; return Progress.waiting) :=
    .bind (isDeferring_spawn j) fun _ => .pure _
  induction o with
  | here f => exact hspawn _
  | successors f | step f => exact isDeferring_fanOut _ _ _ _ _
  | constrain f w =>
    rw [execute]
    split
    · exact hspawn _
    · exact .throw _
  | revisit o p ih =>
    rw [execute]
    split
    · exact .bind (isDeferring_expect _ _) fun _ => .bind (isDeferring_ofEval _) fun _ =>
        isDeferring_react ih _
    · refine .bind (isDeferring_addRevisit _) fun i => ?_
      split
      · exact hspawn _
      · refine .bind (isDeferring_askSession i c p) fun finding => ?_
        cases finding with
        | some finding => exact isDeferring_reactTo i ih finding
        | none =>
          cases c.session with
          | none => exact .pure _
          | some owner => exact .bind (isDeferring_retain owner) fun _ => .pure _

end RunM

/-! ### Obligations that are met at once -/

section Met

variable {ε α : Type} {m : EStateM ε Run α} {Q : α → Run → Prop} {a : α}
  {session : Option SessionId} {link : Option RevisitId} {c : Context}

theorem Run.Through.post (h : r.Through m Q) (hm : m r = .ok a r₁) : Q a r₁ := by
  unfold Run.Through at h
  rw [hm] at h
  exact h.2

namespace RunM

theorem open_of_react {act : RunM Progress} (ho : r.Open c.session)
    (hact : r.Through act fun p r' => p = .met → r'.Open c.session) (reaction : Reaction) :
    r.Through (react c act reaction) fun p r' => p = .met → r'.Open c.session := by
  cases reaction with
  | proceed => exact hact
  | met => exact .pure fun _ => ho
  | fail x => exact (through_fail ho x).bind fun _ _ _ => .pure nofun

theorem open_of_reactTo {p : Precondition} {act : RunM Progress} (i : RevisitId)
    (hact : r.Open c.session → r.Through act fun p r' => p = .met → r'.Open c.session)
    (finding : Finding) :
    r.Through (reactTo i c p act finding) fun p r' => p = .met → r'.Open c.session := by
  refine (through_isSettled c.session).bind fun b r₁ hopen => ?_
  obtain ⟨hr, hb⟩ := hopen
  subst hr
  cases b with
  | true => exact (isSparing_note _ _).bind fun _ _ _ => .pure nofun
  | false => exact open_of_react (hb rfl) (hact (hb rfl)) _

/-- An obligation that is met at once leaves its session open. -/
theorem open_of_execute (ho : r.Open c.session) (link : Option RevisitId) (o : Obligation) :
    r.Through (execute g c link o) fun p r' => p = .met → r'.Open c.session := by
  have hspawn (j : Job) (r : Run) : r.Through (do spawn j; return Progress.waiting)
      fun p r' => p = .met → r'.Open c.session :=
    (isSparing_spawn j r).bind fun _ _ _ => .pure nofun
  have hfanOut (history : History) (f : Formula) (r : Run) :
      r.Through (fanOut g c link history f) fun p r' => p = .met → r'.Open c.session :=
    (isSparing_expect _ _ r).bind fun _ r₁ _ =>
      (IsSparing.forM (fun _ => isSparing_spawn _) _ r₁).bind fun _ _ _ => .pure nofun
  induction o generalizing r with
  | here f => exact hspawn _ r
  | successors f | step f => exact hfanOut _ f r
  | constrain f w =>
    rw [execute]
    split
    · exact hspawn _ r
    · exact .throw _
  | revisit o p ih =>
    rw [execute]
    split
    · refine (isSparing_expect _ _ r).bind fun node r₁ hr₁ => ?_
      refine (isSparing_ofEval _ r₁).bind fun judgement r₂ hr₂ => ?_
      have ho₂ := (hr₁.trans hr₂).open ho
      exact open_of_react ho₂ (ih ho₂) _
    · refine (isSparing_addRevisit _ r).bind fun i r₁ hr₁ => ?_
      split
      · exact hspawn _ r₁
      · refine (isSparing_askSession i c p r₁).bind fun finding r₂ hr₂ => ?_
        cases finding with
        | some finding => exact open_of_reactTo i ih finding
        | none =>
          cases c.session with
          | none => exact .pure nofun
          | some owner => exact (isSparing_retain owner r₂).bind fun _ _ _ => .pure nofun

end RunM

end Met

/-! ### Turns -/

section Tallies

variable {ε α β : Type} {m : EStateM ε Run α} {a : α} {session : Option SessionId}
  {link : Option RevisitId}

/-- Work for the session may resume the link: the session is open, and the link is its own. -/
structure Run.Fit (g : Kripke) (session : Option SessionId) (link : Option RevisitId) (r : Run) :
    Prop where
  charted : r.Charted g
  opened : r.Open session
  links : r.store.Links session link

theorem Run.Fit.step (h : r.Fit g session link) (hp : IsPassive m) (hs : IsSparing m)
    (hm : m r = .ok a r₁) : r₁.Fit g session link := by
  obtain ⟨hr₁, hv, -⟩ := (hp.keeps r).ok h.charted hm
  exact ⟨hr₁, ((hs r).post hm).open h.opened, hv.links h.links⟩

/-- If the computation comes to its end, calls and notices still agree with the records. -/
def Run.Tallies (r : Run) (m : EStateM ε Run α) : Prop :=
  r.Tallied → ∀ a r', m r = .ok a r' → r'.Tallied

theorem IsDeferring.tallies (h : IsDeferring m) (r : Run) : r.Tallies m :=
  fun ht a r' hm => ht.defers (h r a r' hm)

theorem Run.Tallies.bind {k : α → EStateM ε Run β} (hm : r.Tallies m)
    (hk : ∀ a r', m r = .ok a r' → r'.Tallies (k a)) : r.Tallies (m >>= k) := by
  intro ht b r' h
  obtain ⟨a, r₁, hmr, hkr⟩ := exists_of_bind_run h
  exact hk a r₁ hmr (hm ht a r₁ hmr) b r' hkr

/-- A revisit is resumed, and the notice comes with the call. -/
theorem Run.Tallied.resume {i : RevisitId} {v : Revisit} {n : NodeId} (h : r.Tallied)
    (hi : r.store.revisitRecord? i = some ⟨v, false⟩) :
    ({ r with
      store := { r.store with
        revisits := r.store.revisits.modify (i.index - 1) fun e => { e with resumed := true } }
      notices := r.notices.push (.resuming i n)
      calls := r.calls.push (.resume i true) } : Run).Tallied := by
  have hrec := Store.revisitRecord?_resume hi
  have hflag (k : RevisitId) : Store.isResumed { r.store with
      revisits := r.store.revisits.modify (i.index - 1) fun e => { e with resumed := true } } k =
        if k = i then true else r.store.isResumed k := by
    rw [Store.isResumed, hrec, Store.isResumed]
    split <;> rfl
  have hzero : (r.store.isResumed i).toNat = 0 := by rw [Store.isResumed, hi]; rfl
  refine ⟨fun k w hk => ?_, fun k => ?_, fun k => ?_⟩
  · rw [Array.toList_push, List.mem_append, List.mem_singleton] at hk
    have hk := h.suspended k w (hk.resolve_right nofun)
    rw [Store.revisit?, hrec]
    split
    · next hki =>
      rw [hki, Store.revisit?, hi] at hk
      exact hk
    · exact hk
  · rw [hflag, Array.toList_push, List.countP_append, h.calls, List.countP_singleton]
    by_cases hk : k = i
    · simp [Call.resumes, hk, hzero]
    · simp [Call.resumes, hk, Ne.symm hk]
  · rw [hflag, Array.toList_push, List.countP_append, h.notices, List.countP_singleton]
    by_cases hk : k = i
    · simp [Notice.resumes, hk, hzero]
    · simp [Notice.resumes, hk, Ne.symm hk]

namespace RunM

theorem markResumed_run {i : RevisitId} {e : RevisitEntry}
    (hi : r.store.revisitRecord? i = some e) :
    markResumed i r = .ok (!e.resumed) { r with
      store := { r.store with
        revisits := r.store.revisits.modify (i.index - 1) fun e => { e with resumed := true } }
      calls := r.calls.push (.resume i (!e.resumed)) } := by
  simp [markResumed, update?, Store.markResumed?, hi]

/-- To resume a revisit again does nothing. -/
theorem defers_markResumed {i : RevisitId} {v : Revisit}
    (hi : r.store.revisitRecord? i = some ⟨v, true⟩) (hm : markResumed i r = .ok false r₁) :
    r.Defers r₁ := by
  cases (markResumed_run hi).symm.trans hm
  refine .of_call (fun k => ?_) rfl rfl rfl
  rw [Store.revisitRecord?_resume hi]
  split
  · next hk => rw [hk, hi]
  · rfl

theorem isSettled_of_open {session : Option SessionId} (h : r.Open session) :
    isSettled session r = .ok false r := by
  cases session with
  | none => rfl
  | some i =>
    have hask : sessionResult i r = .ok .pending r := ask_run h
    rw [isSettled, bind_run hask]
    rfl

/-- What is executed for an open session and met leaves the link to be resumed. -/
theorem fit_of_execute {c : Context} {o : Obligation} (h : r.Fit g c.session link)
    (hc : c.Charted g) (ho : o.Suits c.history) (hm : execute g c link o r = .ok .met r₁) :
    r₁.Fit g c.session link := by
  obtain ⟨hr₁, hv, -⟩ := (keeps_execute hc h.links ho).ok h.charted hm
  exact ⟨hr₁, (open_of_execute h.opened link o).post hm rfl, hv.links h.links⟩

/-- The link is resumed on behalf of an open session, which is its own, and so not too late. -/
theorem tallies_resumeChain (n : Nat) (h : r.Fit g session link) :
    r.Tallies (resumeChain g n link) := by
  induction n generalizing r session link with
  | zero =>
    cases link with
    | none => exact (IsDeferring.pure _).tallies r
    | some i => exact (IsDeferring.throw _).tallies r
  | succ n ih =>
    cases link with
    | none => exact (IsDeferring.pure _).tallies r
    | some i =>
      obtain ⟨v, hv, rfl⟩ := h.links i rfl
      obtain ⟨⟨v, b⟩, he, rfl⟩ := Option.map_eq_some_iff.mp hv
      have hmark := markResumed_run he
      intro ht a r' hrun
      rw [resumeChain, bind_run hmark] at hrun
      cases b with
      | true =>
        cases hrun
        exact ht.defers ((defers_markResumed he hmark).trans (Run.defers_note _ rfl))
      | false =>
        have h₁ := h.step (isPassive_markResumed i) (isSparing_markResumed i) hmark
        have hv₁ := (((isPassive_markResumed i).keeps r).ok h.charted hmark).2.1 i v hv
        have hrevisit : revisit i _ = .ok v _ := ask_run hv₁
        change (revisit i >>= _) _ = _ at hrun
        rw [bind_run hrevisit, bind_run (isSettled_of_open h₁.opened)] at hrun
        -- the notice comes right after the call, and then the obligation is executed
        have h₂ := h₁.step (isPassive_note _) (isSparing_note _)
          (show note (.resuming i v.node) _ = .ok () _ from rfl)
        refine Run.Tallies.bind ((isDeferring_execute _ _ _ _).tallies _) (fun p r₃ hexec => ?_)
          (ht.resume (n := v.node) he) a r' hrun
        split
        · next hmet =>
          subst hmet
          obtain ⟨hc, ho⟩ := h₂.charted.context i v hv₁
          have hparent := (h₂.charted.parent i v hv₁).1
          exact ih (fit_of_execute ⟨h₂.charted, h₂.opened, hparent⟩ hc ho hexec)
        · exact (IsDeferring.pure _).tallies r₃

theorem tallies_carryOut {act : RunM Progress} (hact : IsDeferring act)
    (h : ∀ r', act r = .ok .met r' → r'.Fit g session link) : r.Tallies (carryOut g link act) := by
  refine (hact.tallies r).bind fun p r₁ hrun => ?_
  split
  · next hmet =>
    subst hmet
    exact tallies_resumeChain _ (h r₁ hrun)
  · exact (IsDeferring.pure _).tallies r₁

theorem tallies_process {j : Job} (hr : r.Charted g) (hj : j.Charted g)
    (hl : r.store.Links j.session j.link) : r.Tallies (process g j) := by
  have hrelease {act : RunM Unit} {r : Run} (hact : r.Tallies act) :
      r.Tallies (do act; release j.session) :=
    hact.bind fun _ r' _ => (isDeferring_release j.session).tallies r'
  rw [process]
  refine ((isDeferring_isSettled _).tallies r).bind fun settled r₁ h₁ => ?_
  obtain ⟨rfl, hopen⟩ := (through_isSettled j.session).post h₁
  cases settled with
  | true => exact hrelease ((isDeferring_note rfl).tallies r₁)
  | false =>
    have hfit : r₁.Fit g j.session j.link := ⟨hr, hopen rfl, hl⟩
    refine ((isDeferring_update (fun _ => rfl) fun _ => rfl).tallies r₁).bind fun seen r₂ h₂ => ?_
    replace hfit := hfit.step (isPassive_visit _) (isSparing_visit _) h₂
    cases seen with
    | true => exact hrelease ((isDeferring_note rfl).tallies r₂)
    | false =>
      have hcount : IsDeferring recordDecomposed := .of_modify fun _ => .of_store rfl rfl rfl
      refine (hcount.tallies r₂).bind fun _ r₃ h₃ => ?_
      replace hfit := hfit.step isPassive_recordDecomposed isSparing_recordDecomposed h₃
      refine ((isDeferring_expect _ _).tallies r₃).bind fun node r₄ h₄ => ?_
      replace hfit := hfit.step (isPassive_expect _ _) (isSparing_expect _ _) h₄
      refine ((isDeferring_note rfl).tallies r₄).bind fun _ r₅ h₅ => ?_
      replace hfit := hfit.step (isPassive_note _) (isSparing_note _) h₅
      refine ((isDeferring_ofEval _).tallies r₅).bind fun u r₆ h₆ => ?_
      have hu := ((keeps_ofEval _).ok hfit.charted h₆).2.2
      replace hfit := hfit.step (isPassive_ofEval _) (isSparing_ofEval _) h₆
      cases u with
      | pass => exact hrelease (tallies_resumeChain _ hfit)
      | fail v => exact hrelease ((isDeferring_fail _ _).tallies r₆)
      | obligation o =>
        exact hrelease (tallies_carryOut (isDeferring_execute _ _ _ _)
          fun r' hm => fit_of_execute hfit hj.1 (hj.suits hu) hm)

theorem tallies_tell (hr : r.Charted g) (result : SessionResult) (i : RevisitId) :
    r.Tallies (tell g result i) := by
  refine ((isDeferring_ask _ _).tallies r).bind fun v r₁ h₁ => ?_
  obtain ⟨rfl, hi⟩ := (through_ask _ _).post h₁
  have hrelease (r : Run) := (isDeferring_release v.session).tallies r
  have hlinks := (hr.parent i v hi).1
  have hexecute := keeps_execute_resume hr hi
  cases Finding.ofResult? result with
  | none => exact hrelease r₁
  | some finding =>
    have hfit (r' : Run) (hm : reactTo i v.toContext v.precondition
        (execute g v.toContext v.parent v.resume) finding r₁ = .ok .met r') :
        r'.Fit g v.session v.parent := by
      obtain ⟨hr', hv, -⟩ := (keeps_reactTo i hexecute finding).ok hr hm
      exact ⟨hr', (open_of_reactTo i (open_of_execute · _ _) finding).post hm rfl, hv.links hlinks⟩
    exact (tallies_carryOut (isDeferring_reactTo i (isDeferring_execute _ _ _ _) finding) hfit).bind
      fun _ r₂ _ => hrelease r₂

theorem tallies_tellAll (hr : r.Charted g) (result : SessionResult) (ws : List RevisitId) :
    r.Tallies (ws.forM (tell g result)) := by
  induction ws generalizing r with
  | nil => exact (IsDeferring.pure _).tallies r
  | cons w ws ih =>
    exact (tallies_tell hr result w).bind fun _ r₁ h₁ => ih ((keeps_tell result w).charted_ok hr h₁)

theorem tallies_turn (hr : r.Charted g) (settings : Settings) : r.Tallies (turn g settings) := by
  refine (isDeferring_nextResolved.tallies r).bind fun next r₁ h₁ => ?_
  have hr₁ := (isPassive_nextResolved.keeps r).charted_ok hr h₁
  cases next with
  | some i =>
    refine .bind (.bind ((isDeferring_ask _ _).tallies r₁) fun result r₂ h₂ => ?_)
      fun _ r₃ _ => (IsDeferring.pure _).tallies r₃
    obtain ⟨rfl, -⟩ := (through_ask _ _).post h₂
    refine ((isDeferring_takeWaiters i).tallies r₂).bind fun ws r₃ h₃ => ?_
    exact tallies_tellAll (((isPassive_takeWaiters i).keeps r₂).charted_ok hr₁ h₃) result ws
  | none =>
    refine ((isDeferring_nextPending _).tallies r₁).bind fun next r₂ h₂ => ?_
    have hr₂ := ((isPassive_nextPending _).keeps r₁).charted_ok hr₁ h₂
    cases next with
    | none => exact (IsDeferring.pure _).tallies r₂
    | some i =>
      refine ((isDeferring_ask _ _).tallies r₂).bind fun j r₃ h₃ => ?_
      obtain ⟨rfl, hi⟩ := (through_ask _ _).post h₃
      obtain ⟨hj, hl⟩ := hr₂.job j ⟨i, .inr hi⟩
      refine (tallies_process hr₂ hj hl).bind fun _ r₄ _ => ?_
      exact ((isDeferring_reportProgress _).tallies r₄).bind fun _ r₅ _ =>
        (IsDeferring.pure _).tallies r₅

theorem tallies_turns (hr : r.Charted g) (settings : Settings) (n : Nat) :
    r.Tallies (turns g settings n) := by
  induction n generalizing r with
  | zero => exact (IsDeferring.throw _).tallies r
  | succ n ih =>
    refine (tallies_turn hr settings).bind fun b r₁ h₁ => ?_
    cases b with
    | true => exact ih ((keeps_turn settings).charted_ok hr h₁)
    | false => exact (IsDeferring.pure _).tallies r₁

theorem tallies_search (hr : r.Charted g) (settings : Settings) (f : Formula) :
    r.Tallies (search g settings f) := by
  have hseed : IsDeferring (seed g f) :=
    .bind (.forM (fun _ => isDeferring_spawn _) _) fun _ =>
      .of_modify fun _ => .of_store rfl rfl rfl
  rw [search_eq]
  refine (hseed.tallies r).bind fun _ r₁ h₁ => ?_
  refine (tallies_turns ((keeps_seed f).charted_ok hr h₁) settings _).bind fun _ r₂ _ => ?_
  refine (IsDeferring.of_get fun r => ?_).tallies r₂
  dsimp only
  split
  · exact .throw _
  · exact .pure _

end RunM

end Tallies

/-! ### Checks -/

theorem Run.defers_announce (r : Run) (g : Kripke) (index : Nat) (f : Formula) :
    r.Defers (r.announce g index f) := by
  unfold Run.announce
  dsimp only
  split
  · exact r.defers_note rfl
  · exact (r.defers_note rfl).trans (Run.defers_note _ rfl)

theorem tallies_requirement (hr : r.Charted g) (index : Nat) (f : Formula) :
    r.Tallies (checkRequirement g settings index f) := by
  intro ht a r' h
  unfold checkRequirement at h
  have hr' := hr.of_bypasses (r.bypasses_announce g index f)
  cases hs : RunM.search g settings f.universal (r.announce g index f) with
  | ok a r₁ =>
    rw [hs] at h
    cases h
    exact RunM.tallies_search hr' settings _ (ht.defers (r.defers_announce g index f)) a r' hs
  | error e r₁ =>
    rw [hs] at h
    cases e <;> cases h

theorem tallies_checkFrom (hr : r.Charted g) (index : Nat) (es : List Formula) :
    r.Tallies (checkFrom g settings index es) := by
  induction es generalizing r index with
  | nil => exact (IsDeferring.pure _).tallies r
  | cons f es ih =>
    exact (tallies_requirement hr index f).bind fun _ r₁ h₁ =>
      ih ((keeps_requirement index f).charted_ok hr h₁) (index + 1)

theorem Run.tallied_start (store : Store) : (Run.start store.reset).Tallied := by
  have hrec (i : RevisitId) : store.reset.revisitRecord? i = none := by
    obtain ⟨_ | n⟩ := i <;> rfl
  have hflag (i : RevisitId) : store.reset.isResumed i = false := by rw [Store.isResumed, hrec]; rfl
  refine ⟨fun i v hi => ?_, fun i => ?_, fun i => ?_⟩
  · cases List.mem_singleton.mp hi
  · rw [show (Run.start store.reset).store.isResumed i = false from hflag i]
    rfl
  · rw [show (Run.start store.reset).store.isResumed i = false from hflag i]
    rfl

/-- A session that passed is not spoilt, and neither is the requirement. -/
theorem Run.TellsApart.not_spoilt {session : Option SessionId} (h : r.TellsApart)
    (ho : session = none ∨
      ∃ k, session = some k ∧ r.store.sessionResult? k = some .pass) (ts : List Task) :
    ¬ (r.view ts).Spoilt session := by
  rcases ho with rfl | ⟨k, rfl, hpass⟩
  · exact Search.not_spoilt_none
  obtain ⟨t, ht, hres⟩ := Option.map_eq_some_iff.mp hpass
  rintro (⟨x, hx⟩ | ⟨i, t', hi, ht', hx⟩)
  · rw [Search.result?, Run.session?_view, ht] at hx
    cases hres.symm.trans (Option.some.inj hx)
  · cases hi
    rw [Run.session?_view, ht] at ht'
    cases ht'
    exact hx ((h.sessions k t ht).passed hres)

namespace Checker

variable {c : Checker} {spec : Specification}

/-- A check that accepts comes to a run with nothing left to do. -/
theorem exists_run_of_check_ok (hl : c.settings.popLimit = none)
    (h : (c.check spec).1.result = .ok ()) :
    ∃ (r : Run) (past : Search), r.Tallied ∧ r.TellsApart ∧
      Course c.graph c.store.config.order spec.reverse past (r.view []) ∧ (r.view []).Idle ∧
      checkFrom c.graph c.settings 0 spec (.start c.store.reset) = .ok () r ∧
      c.check spec = (⟨.ok (), r.notices.push (.allHold spec.length r.store.stats), r.calls⟩,
        c.leave r) := by
  have hv : spec.validate = .ok () := by
    cases hv : spec.validate with
    | ok => rfl
    | error e =>
      rw [check, hv] at h
      cases h
  rw [result_check hv] at h
  cases hc : checkFrom c.graph c.settings 0 spec (.start c.store.reset) with
  | error e r =>
    rw [hc] at h
    cases h
  | ok a r =>
    obtain ⟨h₀, hs₀⟩ := Run.onCourse_start c.graph c.store
    obtain ⟨past, h', hs⟩ := h₀.checkFrom_ok hs₀ hl hc
    rw [List.append_nil] at h'
    refine ⟨r, past, ?_, ?_, h'.course, hs, rfl, ?_⟩
    · exact tallies_checkFrom (Run.charted_start _ _) 0 spec (Run.tallied_start _) a r hc
    · exact ((through_checkFrom 0 spec).ok hc).tellsApart (Run.tellsApart_start c.store)
    · rw [check, hv]
      dsimp only
      rw [checkAll_eq, hc]
      rfl

/-- Depth first, no continuation is lost: when a check accepts, every revisit that was suspended for
something that it requires, on behalf of the requirement itself or of a session that passed, was
resumed once. So say the calls and the notices, and so do the tasks that the check performed: at one
position the revisit is resumed and its obligation executed next, in its context. It never waited
for a session and was told nothing, so the obligation was not executed in any other way. Windows do
not matter. -/
theorem resumed_once (c : Checker) (spec : Specification) (hl : c.settings.popLimit = none)
    (ho : c.store.config.order = .depthFirst) (hok : (c.check spec).1.result = .ok ())
    (i : RevisitId) (v : Revisit) (hv : .suspend i v ∈ (c.check spec).1.calls.toList)
    (hk : v.precondition.kind = .required)
    (howner : v.session = none ∨
      ∃ k, v.session = some k ∧ (c.check spec).2.store.sessionResult? k = some .pass) :
    (c.check spec).1.calls.toList.countP (·.resumes i) = 1 ∧
    (c.check spec).1.notices.toList.countP (·.resumes i) = 1 ∧
    (∀ k ws, .waiters k ws ∈ (c.check spec).1.calls.toList → i ∉ ws) ∧
    (∃ done r, c.Performs spec (.before spec.length) done r ∧ (c.check spec).2 = c.leave r) ∧
    ∀ done r, c.Performs spec (.before spec.length) done r →
      (∃! k, v.ExecutedAt i done k) ∧ done.filter (·.tells i) = [] := by
  obtain ⟨r, past, ht, hapart, hc, hs, hrun, hcheck⟩ := exists_run_of_check_ok hl hok
  rw [hcheck] at hv howner ⊢
  rw [ho] at hc
  obtain ⟨⟨v, b⟩, he, rfl⟩ := Option.map_eq_some_iff.mp (ht.suspended i v hv)
  have hrec : (r.view []).record? i = some ⟨v, b⟩ := (r.record?_view [] i).trans he
  obtain rfl : b = true := by
    cases b with
    | true => rfl
    | false => exact absurd ⟨hrec, hk, hapart.not_spoilt howner []⟩ (hc.not_live hs i v)
  have hresumed : r.store.isResumed i = true := by
    rw [Store.isResumed, he]
    rfl
  have hheard : i ∉ (r.view []).heard := by
    intro hi
    obtain ⟨p, hp, hi⟩ := List.mem_flatMap.mp hi
    obtain ⟨e, he', -, hkind, -⟩ := (hc.valid_accounts.2.answered p hp).2 i hi
    cases hrec.symm.trans he'
    exact hkind hk
  refine ⟨(ht.calls i).trans (by rw [hresumed]; rfl), ?_, fun k ws hcall hi => hheard ?_, ?_,
    fun done r' hdone => ?_⟩
  · rw [Array.toList_push, List.countP_append, ht.notices, hresumed]
    rfl
  · exact List.mem_flatMap.mpr ⟨(k, ws), List.mem_filterMap.mpr ⟨_, hcall, rfl⟩, hi⟩
  · rw [← spec.take_length] at hrun
    obtain ⟨done, hdone⟩ := exists_performs_of_checkFrom hl (Nat.le_refl _) hrun
    exact ⟨done, r, hdone, rfl⟩
  · have hr' := hdone.onTheWay hrun
    dsimp only at hr'
    rw [spec.take_length] at hr'
    cases hrun.symm.trans hr'
    obtain ⟨k, hk, hunique⟩ := (hdone.continues hl i).resumed v hrec
    have htold := (hdone.informs hl).untold i hheard
    simp only [Run.view, List.take_nil, List.append_nil] at hk hunique htold
    exact ⟨⟨k, hk, fun k' hk' => hunique v k' hk'⟩, htold⟩

end Checker

/-- The call suspends the revisit for something that it requires, on behalf of the owner. -/
def Call.requires (i : RevisitId) (owner : Option SessionId) : Call → Bool
  | .suspend k v => k = i && v.precondition.kind = .required && v.session = owner
  | _ => false

theorem Call.exists_of_requires {i : RevisitId} {owner : Option SessionId} {calls : List Call}
    (h : calls.any (·.requires i owner) = true) :
    ∃ v, .suspend i v ∈ calls ∧ v.precondition.kind = .required ∧ v.session = owner := by
  obtain ⟨call, hmem, hcall⟩ := List.any_eq_true.mp h
  cases call with
  | suspend k v =>
    obtain ⟨⟨rfl, hk⟩, hs⟩ : (k = i ∧ v.precondition.kind = .required) ∧ v.session = owner := by
      simpa [requires] using hcall
    exact ⟨v, hmem, hk, hs⟩
  | _ => cases hcall

/-- Within a window, the left operand is looked at in a session, which requires something. -/
theorem Checker.resumed_once_loop :
    let e : Formula := .next .all (.not .falsum)
    let f : Formula := .within (.always .all (.or (.and e e) e))
      (.ofList [⟨.time, .le, ⟨1, ⟨.time, .pico⟩⟩⟩])
    ∃ v, .suspend ⟨3⟩ v ∈ ((small .loop .depthFirst).check [f]).1.calls.toList ∧
      v.session = some ⟨1⟩ ∧
      ((small .loop .depthFirst).check [f]).1.calls.toList.countP (·.resumes ⟨3⟩) = 1 ∧
      ((small .loop .depthFirst).check [f]).1.notices.toList.countP (·.resumes ⟨3⟩) = 1 ∧
      (∀ k ws, .waiters k ws ∈ ((small .loop .depthFirst).check [f]).1.calls.toList → ⟨3⟩ ∉ ws) ∧
      ∃ done r, (small .loop .depthFirst).Performs [f] (.before 1) done r ∧
        (∃! k, v.ExecutedAt ⟨3⟩ done k) ∧ done.filter (·.tells ⟨3⟩) = [] := by
  intro e f
  have hok : ((small .loop .depthFirst).check [f]).1.result = .ok () := by decide +kernel
  have hcall : ((small .loop .depthFirst).check [f]).1.calls.toList.any
      (·.requires ⟨3⟩ (some ⟨1⟩)) = true := by decide +kernel
  have hpass : ((small .loop .depthFirst).check [f]).2.store.sessionResult? ⟨1⟩ = some .pass := by
    decide +kernel
  obtain ⟨v, hv, hk, hs⟩ := Call.exists_of_requires hcall
  obtain ⟨hcalls, hnotices, hwaiters, ⟨done, r, hdone, -⟩, hall⟩ :=
    resumed_once (small .loop .depthFirst) [f] rfl rfl hok ⟨3⟩ v hv hk (.inr ⟨⟨1⟩, hs, hpass⟩)
  exact ⟨v, hv, hs, hcalls, hnotices, hwaiters, done, r, hdone, hall done r hdone⟩

end CostCTL
