import CostCTL.Proofs.Verdicts

/-!
# Checkers used again

A check begins with a reset of the store. That leaves behind how far the tables have grown, and
nothing else. How the chains of a table are laid shows in none of its answers
(`Table.SameValues.put`), so two runs whose stores have the same records stay so and answer alike,
operation by operation (`IsIndifferent`). A checker that was used before, however its checks ended,
therefore answers and counts as a new one (`Checker.check_after`).
-/

namespace CostCTL

/-! ### Tables -/

namespace Table

variable {α : Type} [DecidableEq α] [Hashable α] {t u : Table α}

/-- The same values have the same numbers. The chains may be laid differently. -/
def SameValues (t u : Table α) : Prop := t.toList = u.toList

theorem SameValues.get? (h : t.SameValues u) (n : Nat) : t.get? n = u.get? n := by
  cases n with
  | zero => rfl
  | succ n => rw [get?_succ, get?_succ, h]

theorem SameValues.put (h : t.SameValues u) (v : α) :
    (t.put v).1 = (u.put v).1 ∧ (t.put v).2.SameValues (u.put v).2 := by
  have hlist : t.toList = u.toList := h
  refine ⟨?_, by rw [SameValues, toList_put, toList_put, hlist]⟩
  by_cases hv : v ∈ t.toList
  · obtain ⟨i, hi, ht⟩ := put_of_mem hv
    have hget : u.get? (i + 1) = some v := by rw [get?_succ, ← hlist, hi]
    rw [ht, (put_of_get? hget).1]
  · rw [put_of_not_mem hv, put_of_not_mem (hlist ▸ hv), hlist]

theorem SameValues.size (h : t.SameValues u) : t.size = u.size := by
  have hlist : t.toList = u.toList := h
  exact congrArg List.length hlist

theorem sameValues_clear (t u : Table α) : t.clear.SameValues u.clear := rfl

end Table

/-! ### Stores -/

namespace Store

variable {α : Type} {s t : Store} {jobs : Table Job} {members : Table VisitKey}
  {keys : Table SessionKey}

/-- The store with other tables in the place of its own. -/
def retable (s : Store) (jobs : Table Job) (members : Table VisitKey) (keys : Table SessionKey) :
    Store :=
  ⟨s.config, jobs, s.pending, ⟨members, s.visited.hits, s.visited.misses⟩, s.revisits, keys,
    s.sessions, s.enqueued, s.decomposed, s.shared⟩

/-- The stores have the same records, in tables that may be laid differently. -/
inductive SameRecords (s : Store) : Store → Prop where
  | retable {jobs : Table Job} {members : Table VisitKey} {keys : Table SessionKey}
      (hjobs : s.jobs.SameValues jobs) (hmembers : s.visited.members.SameValues members)
      (hkeys : s.sessionKeys.SameValues keys) : SameRecords s (s.retable jobs members keys)

/-- Of stores with the same records the operation has the same answer, and they stay so. -/
def IsUniform (op : Store → α × Store) : Prop :=
  ∀ s t : Store, s.SameRecords t → (op s).1 = (op t).1 ∧ (op s).2.SameRecords (op t).2

@[simp] theorem session?_retable (i : SessionId) :
    (s.retable jobs members keys).session? i = s.session? i := rfl

@[simp] theorem revisitRecord?_retable (i : RevisitId) :
    (s.retable jobs members keys).revisitRecord? i = s.revisitRecord? i := rfl

@[simp] theorem popPending?_retable :
    (s.retable jobs members keys).popPending? = s.popPending? := rfl

theorem SameRecords.stats (h : s.SameRecords t) : s.stats = t.stats := by
  obtain ⟨hjobs, -, -⟩ := h
  exact congrArg (fun n => { s.stats with jobs := n }) hjobs.size

theorem SameRecords.pendingSessions (h : s.SameRecords t) :
    s.pendingSessions = t.pendingSessions := by
  obtain ⟨-, -, -⟩ := h
  rfl

theorem sameRecords_reset (h : s.config = t.config) : s.reset.SameRecords t.reset := by
  have ht : t.reset =
      s.reset.retable t.jobs.clear t.visited.members.clear t.sessionKeys.clear := by
    rw [reset, ← h]
    rfl
  rw [ht]
  exact .retable (Table.sameValues_clear _ _) (Table.sameValues_clear _ _)
    (Table.sameValues_clear _ _)

/-! ### Operations without tables -/

/-- An operation that does the same with other tables leaves its own alone. -/
theorem isUniform_of_retable {op : Store → α × Store} (hop : ∀ s jobs members keys,
      op (s.retable jobs members keys) = ((op s).1, (op s).2.retable jobs members keys)) :
    IsUniform op := by
  rintro s _ ⟨hjobs, hmembers, hkeys⟩
  -- the store is the same with its own tables put in their places
  have hown : (op s).2 = (op s).2.retable s.jobs s.visited.members s.sessionKeys :=
    congrArg Prod.snd (hop s s.jobs s.visited.members s.sessionKeys)
  rw [hop]
  refine ⟨rfl, .retable ?_ ?_ ?_⟩
  · rw [hown]
    exact hjobs
  · rw [hown]
    exact hmembers
  · rw [hown]
    exact hkeys

theorem isUniform_nextPending : IsUniform (·.nextPending) := by
  refine isUniform_of_retable fun s _ _ _ => ?_
  simp only [nextPending, popPending?_retable]
  cases s.popPending? with
  | none => rfl
  | some p => rfl

theorem isUniform_addRevisit (r : Revisit) : IsUniform (·.addRevisit r) :=
  isUniform_of_retable fun _ _ _ _ => rfl

theorem isUniform_markResumed? (i : RevisitId) : IsUniform (·.markResumed? i) := by
  refine isUniform_of_retable fun s _ _ _ => ?_
  simp only [markResumed?, revisitRecord?_retable]
  cases s.revisitRecord? i with
  | none => rfl
  | some e => rfl

theorem isUniform_complete? (i : SessionId) (result : SessionResult) :
    IsUniform (·.complete? i result) := by
  refine isUniform_of_retable fun s _ _ _ => ?_
  simp only [complete?, session?_retable]
  cases s.session? i with
  | none => rfl
  | some t =>
    dsimp only
    cases t.result.isPending <;> rfl

theorem isUniform_recordExceeded? (i : SessionId) (x : Counterexample) :
    IsUniform (·.recordExceeded? i x) := by
  refine isUniform_of_retable fun s _ _ _ => ?_
  simp only [recordExceeded?, session?_retable]
  cases s.session? i with
  | none => rfl
  | some t => rfl

theorem isUniform_takeWaiters? (i : SessionId) : IsUniform (·.takeWaiters? i) := by
  refine isUniform_of_retable fun s _ _ _ => ?_
  simp only [takeWaiters?, session?_retable]
  cases s.session? i with
  | none => rfl
  | some t => rfl

theorem isUniform_retain? (i : SessionId) : IsUniform (·.retain? i) := by
  refine isUniform_of_retable fun s _ _ _ => ?_
  simp only [retain?, session?_retable]
  cases s.session? i with
  | none => rfl
  | some t => rfl

theorem isUniform_release? (i : SessionId) : IsUniform (·.release? i) := by
  refine isUniform_of_retable fun s _ _ _ => ?_
  simp only [release?, session?_retable]
  cases s.session? i with
  | none => rfl
  | some t =>
    by_cases ht : t.outstanding = 0
    · simp only [if_pos ht]
    · simp only [if_neg ht]
      rfl

/-! ### Operations on tables -/

theorem visit_eq (s : Store) (k : VisitKey) :
    s.visit k = (!(s.visited.members.put k).1.2, { s with
      visited.members := (s.visited.members.put k).2
      visited.hits := if (s.visited.members.put k).1.2 then s.visited.hits else s.visited.hits + 1
      visited.misses :=
        if (s.visited.members.put k).1.2 then s.visited.misses + 1 else s.visited.misses }) := by
  simp only [visit, SeenSet.visit]
  rcases s.visited.members.put k with ⟨⟨n, _ | _⟩, t⟩ <;> rfl

theorem isUniform_internJob (j : Job) : IsUniform (·.internJob j) := by
  rintro s _ ⟨hjobs, hmembers, hkeys⟩
  obtain ⟨hn, hput⟩ := hjobs.put j
  exact ⟨congrArg (fun n => JobId.mk n.1) hn, .retable hput hmembers hkeys⟩

theorem isUniform_visit (k : VisitKey) : IsUniform (·.visit k) := by
  rintro s _ ⟨hjobs, hmembers, hkeys⟩
  obtain ⟨hn, hput⟩ := hmembers.put k
  simp only [visit_eq]
  refine ⟨by simp only [retable, hn], ?_⟩
  simp only [retable, ← hn]
  exact .retable hjobs hput hkeys

theorem isUniform_openSession (k : SessionKey) (waiter : RevisitId) :
    IsUniform (·.openSession k waiter) := by
  rintro s _ ⟨hjobs, hmembers, hkeys⟩
  obtain ⟨hn, hput⟩ := hkeys.put k
  simp only [RunM.openSession_eq, retable, ← hn]
  exact ⟨trivial, .retable hjobs hmembers hput⟩

end Store

/-! ### Runs -/

/-- The runs differ in the layout of their tables only. -/
inductive Run.SameRecords (r : Run) : Run → Prop where
  | restore {store : Store} (h : r.store.SameRecords store) : SameRecords r { r with store }

section Indifferent

variable {ε α β : Type} {m : EStateM ε Run α}

/-- The results say the same, of runs with the same records. -/
inductive SameOutcome : EStateM.Result ε Run α → EStateM.Result ε Run α → Prop where
  | ok {r r' : Run} (a : α) (h : r.SameRecords r') : SameOutcome (.ok a r) (.ok a r')
  | error {r r' : Run} (e : ε) (h : r.SameRecords r') : SameOutcome (.error e r) (.error e r')

/-- The computation does not depend on the layout of tables. -/
def IsIndifferent (m : EStateM ε Run α) : Prop :=
  ∀ r r' : Run, r.SameRecords r' → SameOutcome (m r) (m r')

namespace IsIndifferent

theorem pure (a : α) : IsIndifferent (Pure.pure a : EStateM ε Run α) := fun _ _ h => .ok a h

theorem throw (e : ε) : IsIndifferent (MonadExcept.throw e : EStateM ε Run α) :=
  fun _ _ h => .error e h

theorem bind {k : α → EStateM ε Run β} (hm : IsIndifferent m) (hk : ∀ a, IsIndifferent (k a)) :
    IsIndifferent (m >>= k) := by
  intro r r' h
  have hr := hm r r' h
  change SameOutcome (EStateM.bind m k r) (EStateM.bind m k r')
  unfold EStateM.bind
  generalize m r = x at hr
  generalize m r' = y at hr
  cases hr with
  | ok a h => exact hk a _ _ h
  | error e h => exact .error e h

/-- What is read may differ in the layout of tables, and what is done then may not. -/
theorem of_get {k : Run → EStateM ε Run α}
    (hk : ∀ r r' : Run, r.SameRecords r' → SameOutcome (k r r) (k r' r')) :
    IsIndifferent (get >>= k) := hk

theorem of_modify {f : Run → Run} (hf : ∀ r r' : Run, r.SameRecords r' → (f r).SameRecords (f r')) :
    IsIndifferent (modify f : EStateM ε Run PUnit) := by
  intro r r' h
  change SameOutcome (.ok _ (f r)) (.ok _ (f r'))
  exact .ok _ (hf r r' h)

theorem forM {γ : Type} {f : γ → EStateM ε Run PUnit} (hf : ∀ a, IsIndifferent (f a))
    (l : List γ) : IsIndifferent (l.forM f) := by
  induction l with
  | nil => exact .pure _
  | cons a l ih => exact .bind (hf a) fun _ => ih

end IsIndifferent

end Indifferent

namespace RunM

variable {α : Type}

/-! ### Operations -/

theorem isIndifferent_note (n : Notice) : IsIndifferent (note n) := by
  refine .of_modify ?_
  rintro r _ ⟨h⟩
  exact .restore h

theorem isIndifferent_expect (f : Fault) (a : Option α) : IsIndifferent (expect f a) := by
  cases a with
  | none => exact .throw _
  | some a => exact .pure a

theorem isIndifferent_ask (f : Fault) {query : Store → Option α}
    (hq : ∀ s t : Store, s.SameRecords t → query s = query t) : IsIndifferent (ask f query) := by
  refine .of_get ?_
  rintro r _ ⟨h⟩
  dsimp only
  rw [← hq _ _ h]
  exact isIndifferent_expect f _ _ _ (.restore h)

theorem isIndifferent_update {op : Store → α × Store} (hop : Store.IsUniform op)
    (call : α → Call) : IsIndifferent (update op call) := by
  rintro r _ ⟨h⟩
  obtain ⟨ha, hs⟩ := hop _ _ h
  simp only [update, ← ha]
  exact .ok _ (.restore hs)

theorem isIndifferent_update? {op : Store → Option α × Store} (hop : Store.IsUniform op)
    (f : Fault) (call : α → Call) : IsIndifferent (update? f op call) := by
  rintro r _ ⟨h⟩
  obtain ⟨ha, hs⟩ := hop _ _ h
  rcases hr : op r.store with ⟨_ | a, s⟩ <;> rcases hr' : op _ with ⟨_ | a', s'⟩ <;>
    rw [hr, hr'] at ha hs <;> simp only [update?, hr, hr']
  · exact .error _ (.restore hs)
  · cases ha
  · cases ha
  · cases ha
    exact .ok _ (.restore hs)

theorem isIndifferent_job (i : JobId) : IsIndifferent (job i) := by
  refine isIndifferent_ask _ ?_
  rintro s _ ⟨hjobs, -, -⟩
  exact hjobs.get? i.index

theorem isIndifferent_nextPending (limit : Option Nat) : IsIndifferent (nextPending limit) := by
  refine .of_get ?_
  rintro r _ ⟨h⟩
  split
  · exact IsIndifferent.bind (.of_modify fun | _, _, ⟨h⟩ => .restore h) (fun _ => .pure none) _ _
      (.restore h)
  · exact IsIndifferent.bind (.of_modify fun | _, _, ⟨h⟩ => .restore h)
      (fun _ => isIndifferent_update Store.isUniform_nextPending _) _ _ (.restore h)

theorem isIndifferent_visit (k : VisitKey) : IsIndifferent (visit k) :=
  isIndifferent_update (Store.isUniform_visit k) _

theorem isIndifferent_recordDecomposed : IsIndifferent recordDecomposed := by
  refine .of_modify ?_
  rintro r _ ⟨hjobs, hmembers, hkeys⟩
  exact .restore (.retable hjobs hmembers hkeys)

theorem isIndifferent_revisit (i : RevisitId) : IsIndifferent (revisit i) :=
  isIndifferent_ask _ fun | _, _, .retable _ _ _ => rfl

theorem isIndifferent_addRevisit (r : Revisit) : IsIndifferent (addRevisit r) :=
  isIndifferent_update (Store.isUniform_addRevisit r) _

theorem isIndifferent_markResumed (i : RevisitId) : IsIndifferent (markResumed i) :=
  isIndifferent_update? (Store.isUniform_markResumed? i) _ _

theorem isIndifferent_openSession (k : SessionKey) (waiter : RevisitId) :
    IsIndifferent (openSession k waiter) :=
  isIndifferent_update (Store.isUniform_openSession k waiter) _

theorem isIndifferent_sessionResult (i : SessionId) : IsIndifferent (sessionResult i) :=
  isIndifferent_ask _ fun | _, _, .retable _ _ _ => rfl

theorem isIndifferent_isSettled (session : Option SessionId) :
    IsIndifferent (isSettled session) := by
  cases session with
  | none => exact .pure false
  | some i => exact .bind (isIndifferent_sessionResult i) fun _ => .pure _

theorem isIndifferent_takeWaiters (i : SessionId) : IsIndifferent (takeWaiters i) :=
  isIndifferent_update? (Store.isUniform_takeWaiters? i) _ _

theorem isIndifferent_recordExceeded (i : SessionId) (x : Counterexample) :
    IsIndifferent (recordExceeded i x) :=
  isIndifferent_update? (Store.isUniform_recordExceeded? i x) _ _

theorem isIndifferent_retain (i : SessionId) : IsIndifferent (retain i) :=
  isIndifferent_update? (Store.isUniform_retain? i) _ _

theorem isIndifferent_releaseOne (i : SessionId) : IsIndifferent (releaseOne i) :=
  isIndifferent_update? (Store.isUniform_release? i) _ _

theorem isIndifferent_complete (i : SessionId) (result : SessionResult) :
    IsIndifferent (complete i result) := by
  refine .bind (isIndifferent_update? (Store.isUniform_complete? i result) _ _) fun first => ?_
  cases first with
  | true => exact .of_modify fun | _, _, ⟨h⟩ => .restore h
  | false => exact isIndifferent_note _

theorem isIndifferent_nextResolved : IsIndifferent nextResolved := by
  refine .of_get ?_
  rintro r _ ⟨h⟩
  dsimp only
  cases r.resolved.popFront? with
  | none => exact .ok none (.restore h)
  | some p => exact .ok (some p.1) (.restore h)

theorem isIndifferent_spawn (j : Job) : IsIndifferent (spawn j) := by
  have henqueue : IsIndifferent (enqueue j) := by
    refine .bind (isIndifferent_update (Store.isUniform_internJob j) _) fun i => .of_modify ?_
    rintro r _ ⟨hjobs, hmembers, hkeys⟩
    exact .restore (.retable hjobs hmembers hkeys)
  unfold spawn
  cases j.session with
  | none => exact henqueue
  | some i => exact .bind (isIndifferent_retain i) fun _ => henqueue

theorem isIndifferent_release (session : Option SessionId) : IsIndifferent (release session) := by
  cases session with
  | none => exact .pure _
  | some i =>
    refine .bind (isIndifferent_releaseOne i) fun last => ?_
    cases last with
    | false => exact .pure _
    | true =>
      refine .bind (isIndifferent_isSettled (some i)) fun settled => ?_
      cases settled with
      | true => exact .pure _
      | false =>
        refine .bind (isIndifferent_ask _ fun | _, _, .retable _ _ _ => rfl) fun exceeded => ?_
        cases exceeded <;>
          exact .bind (isIndifferent_note _) fun _ => isIndifferent_complete i _

theorem isIndifferent_fail (session : Option SessionId) (x : Counterexample) :
    IsIndifferent (fail session x) := by
  cases session with
  | none => exact .throw _
  | some i =>
    rw [fail]
    split
    · exact .bind (isIndifferent_note _) fun _ => isIndifferent_recordExceeded i x
    · exact .bind (isIndifferent_note _) fun _ => isIndifferent_complete i _

/-! ### Turns -/

theorem isIndifferent_ofEval (e : Except EvalError α) : IsIndifferent (ofEval e) := by
  cases e with
  | ok a => exact .pure a
  | error e => cases e <;> exact .throw _

theorem isIndifferent_fanOut (g : Kripke) (c : Context) (link : Option RevisitId)
    (history : History) (f : Formula) : IsIndifferent (fanOut g c link history f) :=
  .bind (isIndifferent_expect _ _) fun _ =>
    .bind (.forM (fun _ => isIndifferent_spawn _) _) fun _ => .pure _

theorem isIndifferent_react {act : RunM Progress} (hact : IsIndifferent act) (c : Context)
    (reaction : Reaction) : IsIndifferent (react c act reaction) := by
  cases reaction with
  | proceed => exact hact
  | met => exact .pure _
  | fail e => exact .bind (isIndifferent_fail c.session e) fun _ => .pure _

theorem isIndifferent_reactTo {act : RunM Progress} (hact : IsIndifferent act) (i : RevisitId)
    (c : Context) (p : Precondition) (finding : Finding) :
    IsIndifferent (reactTo i c p act finding) := by
  refine .bind (isIndifferent_isSettled c.session) fun settled => ?_
  cases settled with
  | true => exact .bind (isIndifferent_note _) fun _ => .pure _
  | false => exact isIndifferent_react hact c _

theorem isIndifferent_askSession (i : RevisitId) (c : Context) (p : Precondition) :
    IsIndifferent (askSession i c p) := by
  refine .bind (isIndifferent_openSession _ i) fun (session, created) => ?_
  have hresult : IsIndifferent do return Finding.ofResult? (← sessionResult session) :=
    .bind (isIndifferent_sessionResult session) fun _ => .pure _
  cases created with
  | true =>
    exact .bind (isIndifferent_note _) fun _ => .bind (isIndifferent_spawn _) fun _ => hresult
  | false => exact .bind (isIndifferent_note _) fun _ => hresult

theorem isIndifferent_execute (g : Kripke) (c : Context) (link : Option RevisitId)
    (o : Obligation) : IsIndifferent (execute g c link o) := by
  have hspawn (j : Job) : IsIndifferent do spawn j; return Progress.waiting :=
    .bind (isIndifferent_spawn j) fun _ => .pure _
  induction o with
  | here f => exact hspawn _
  | successors f | step f => exact isIndifferent_fanOut _ _ _ _ _
  | constrain f w =>
    rw [execute]
    split
    · exact hspawn _
    · exact .throw _
  | revisit resume p ih =>
    rw [execute]
    split
    · exact .bind (isIndifferent_expect _ _) fun _ => .bind (isIndifferent_ofEval _) fun _ =>
        isIndifferent_react ih c _
    · refine .bind (isIndifferent_addRevisit _) fun i => ?_
      split
      · exact hspawn _
      · refine .bind (isIndifferent_askSession i c p) fun finding => ?_
        cases finding with
        | some finding => exact isIndifferent_reactTo ih i c p finding
        | none =>
          cases c.session with
          | none => exact .pure _
          | some owner => exact .bind (isIndifferent_retain owner) fun _ => .pure _

theorem isIndifferent_resumeChain (g : Kripke) (n : Nat) (link : Option RevisitId) :
    IsIndifferent (resumeChain g n link) := by
  induction n generalizing link with
  | zero =>
    cases link with
    | none => exact .pure _
    | some i => exact .throw _
  | succ n ih =>
    cases link with
    | none => exact .pure _
    | some i =>
      refine .bind (isIndifferent_markResumed i) fun first => ?_
      cases first with
      | false => exact isIndifferent_note _
      | true =>
        refine .bind (isIndifferent_revisit i) fun v => ?_
        refine .bind (isIndifferent_isSettled v.session) fun settled => ?_
        cases settled with
        | true => exact .pure _
        | false =>
          refine .bind (isIndifferent_note _) fun _ => ?_
          refine .bind (isIndifferent_execute g v.toContext v.parent v.resume) fun progress => ?_
          split
          · exact ih v.parent
          · exact .pure _

theorem isIndifferent_carryOut {act : RunM Progress} (hact : IsIndifferent act) (g : Kripke)
    (link : Option RevisitId) : IsIndifferent (carryOut g link act) := by
  refine .bind hact fun progress => ?_
  split
  · exact isIndifferent_resumeChain g _ link
  · exact .pure _

theorem isIndifferent_process (g : Kripke) (j : Job) : IsIndifferent (process g j) := by
  have hrelease := isIndifferent_release j.session
  refine .bind (isIndifferent_isSettled j.session) fun settled => ?_
  cases settled with
  | true => exact .bind (isIndifferent_note _) fun _ => hrelease
  | false =>
    refine .bind (isIndifferent_visit _) fun seen => ?_
    cases seen with
    | true => exact .bind (isIndifferent_note _) fun _ => hrelease
    | false =>
      refine .bind isIndifferent_recordDecomposed fun _ => ?_
      refine .bind (isIndifferent_expect _ _) fun node => ?_
      refine .bind (isIndifferent_note _) fun _ => ?_
      refine .bind (isIndifferent_ofEval _) fun u => ?_
      cases u with
      | pass => exact .bind (isIndifferent_resumeChain g _ j.link) fun _ => hrelease
      | fail v => exact .bind (isIndifferent_fail j.session _) fun _ => hrelease
      | obligation o =>
        exact .bind (isIndifferent_carryOut (isIndifferent_execute g _ _ o) g _) fun _ => hrelease

theorem isIndifferent_tell (g : Kripke) (result : SessionResult) (i : RevisitId) :
    IsIndifferent (tell g result i) := by
  refine .bind (isIndifferent_revisit i) fun v => ?_
  have hrelease := isIndifferent_release v.session
  cases Finding.ofResult? result with
  | none => exact hrelease
  | some finding =>
    exact .bind (isIndifferent_carryOut
      (isIndifferent_reactTo (isIndifferent_execute g _ _ _) i _ _ finding) g _) fun _ => hrelease

theorem isIndifferent_notify (g : Kripke) (i : SessionId) : IsIndifferent (notify g i) :=
  .bind (isIndifferent_sessionResult i) fun result => .bind (isIndifferent_takeWaiters i) fun _ =>
    .forM (isIndifferent_tell g result) _

theorem isIndifferent_reportProgress (interval : Nat) :
    IsIndifferent (reportProgress interval) := by
  refine .bind (.of_modify fun | _, _, ⟨h⟩ => .restore h) fun _ => .of_get ?_
  rintro r _ ⟨h⟩
  dsimp only
  split
  · rw [← h.stats, ← h.pendingSessions]
    exact isIndifferent_note _ _ _ (.restore h)
  · exact .ok _ (.restore h)

theorem isIndifferent_turn (g : Kripke) (settings : Settings) :
    IsIndifferent (turn g settings) := by
  refine .bind isIndifferent_nextResolved fun next => ?_
  cases next with
  | some i => exact .bind (isIndifferent_notify g i) fun _ => .pure _
  | none =>
    refine .bind (isIndifferent_nextPending _) fun next => ?_
    cases next with
    | none => exact .pure _
    | some i =>
      exact .bind (isIndifferent_job i) fun j => .bind (isIndifferent_process g j) fun _ =>
        .bind (isIndifferent_reportProgress _) fun _ => .pure _

theorem isIndifferent_turns (g : Kripke) (settings : Settings) (n : Nat) :
    IsIndifferent (turns g settings n) := by
  induction n with
  | zero => exact .throw _
  | succ n ih =>
    refine .bind (isIndifferent_turn g settings) fun more => ?_
    cases more with
    | true => exact ih
    | false => exact .pure _

theorem isIndifferent_search (g : Kripke) (settings : Settings) (f : Formula) :
    IsIndifferent (search g settings f) := by
  refine .bind (.forM (fun _ => isIndifferent_spawn _) _) fun _ => ?_
  refine .bind (.of_modify fun | _, _, ⟨h⟩ => .restore h) fun _ => ?_
  refine .bind (isIndifferent_turns g settings _) fun _ => .of_get ?_
  rintro r _ ⟨h⟩
  dsimp only
  rw [← h.pendingSessions]
  split
  · exact .error _ (.restore h)
  · exact .ok _ (.restore h)

end RunM

/-! ### Checks -/

theorem isIndifferent_checkRequirement (g : Kripke) (settings : Settings) (index : Nat)
    (f : Formula) : IsIndifferent (checkRequirement g settings index f) := by
  rintro r _ ⟨h⟩
  have hannounce {store : Store} (h : r.store.SameRecords store) :
      (r.announce g index f).SameRecords (Run.announce { r with store } g index f) := by
    unfold Run.announce
    dsimp only
    split <;> exact .restore h
  have hsearch := RunM.isIndifferent_search g settings f.universal _ _ (hannounce h)
  unfold checkRequirement
  generalize RunM.search g settings f.universal _ = x at hsearch
  generalize RunM.search g settings f.universal _ = y at hsearch
  cases hsearch with
  | ok a h => exact .ok _ h
  | error e h =>
    obtain ⟨h⟩ := h
    cases e with
    | refuted x => exact .error _ (.restore h)
    | stop e => exact .error _ (.restore h)

theorem isIndifferent_checkFrom (g : Kripke) (settings : Settings) (index : Nat)
    (es : List Formula) : IsIndifferent (checkFrom g settings index es) := by
  induction es generalizing index with
  | nil => exact .pure _
  | cons f es ih =>
    exact .bind (isIndifferent_checkRequirement g settings index f) fun _ => ih (index + 1)

theorem isIndifferent_checkAll (g : Kripke) (settings : Settings) (spec : Specification) :
    IsIndifferent (checkAll g settings spec) := by
  refine .bind (isIndifferent_checkFrom g settings 0 spec) fun _ => .of_modify ?_
  rintro r _ ⟨h⟩
  dsimp only
  rw [← h.stats]
  exact .restore h

namespace Checker

variable {c d e : Checker} {spec : Specification}

/-- The checkers were set up alike, whatever they were used for since. -/
structure SameSetup (c d : Checker) : Prop where
  graph : c.graph = d.graph
  settings : c.settings = d.settings
  config : c.store.config = d.store.config

theorem SameSetup.refl (c : Checker) : c.SameSetup c := ⟨rfl, rfl, rfl⟩

theorem SameSetup.trans (h : c.SameSetup d) (h' : d.SameSetup e) : c.SameSetup e :=
  ⟨h.graph.trans h'.graph, h.settings.trans h'.settings, h.config.trans h'.config⟩

/-- A check leaves behind a checker with the setup it was given. -/
theorem sameSetup_check (c : Checker) (spec : Specification) : c.SameSetup (c.check spec).2 := by
  cases hv : spec.validate with
  | error e =>
    rw [check, hv]
    exact .refl c
  | ok _ =>
    rw [check_snd hv]
    exact ⟨rfl, rfl, (advances_final (through_checkFrom 0 spec).advancesTo).config.symm⟩

/-- How a checker is set up decides what it answers and how it counts. -/
theorem SameSetup.check (h : c.SameSetup d) (hv : spec.validate = .ok ()) :
    (c.check spec).1 = (d.check spec).1 ∧ (c.check spec).2.stats = (d.check spec).2.stats := by
  have hall := isIndifferent_checkAll c.graph c.settings spec (.start c.store.reset)
    (.start d.store.reset) (.restore (Store.sameRecords_reset h.config))
  unfold Checker.check
  rw [hv, ← h.graph, ← h.settings]
  dsimp only
  generalize checkAll _ _ _ _ = x at hall
  generalize checkAll _ _ _ _ = y at hall
  rcases hall with ⟨_, ⟨h⟩⟩ | ⟨_, ⟨h⟩⟩ <;> exact ⟨rfl, h.stats⟩

/-- The checker after these checks, one after the other. -/
def after (c : Checker) (specs : List Specification) : Checker :=
  specs.foldl (fun d spec => (d.check spec).2) c

theorem sameSetup_after (c : Checker) (specs : List Specification) :
    c.SameSetup (c.after specs) := by
  induction specs generalizing c with
  | nil => exact .refl c
  | cons spec specs ih => exact (c.sameSetup_check spec).trans (ih _)

/-- A checker may be used again. Whatever it was asked to check before, and however these checks
ended, it answers as it would have without them, and counts the same. -/
theorem check_after (c : Checker) (specs : List Specification) (hv : spec.validate = .ok ()) :
    ((c.after specs).check spec).1 = (c.check spec).1 ∧
      ((c.after specs).check spec).2.stats = (c.check spec).2.stats :=
  ((c.sameSetup_after specs).check hv).imp Eq.symm Eq.symm

theorem check_after_loop :
    let past : List Specification :=
      [[.always .all (.not .falsum), .eventually .all .falsum], [.within .falsum ∅]]
    let spec : Specification := [.not (.eventually .all .falsum), .eventually .all .falsum]
    let used := (small .loop .depthFirst).after past
    (small .loop .depthFirst).store.jobs.chains.size < used.store.jobs.chains.size ∧
      (used.check spec).1.result = .error (.error (.unsatisfied 1 (.eventually .all .falsum)
        ⟨.noWitness (.eventually .all .falsum) ⟨0⟩, [⟨0⟩, ⟨0⟩]⟩)) ∧
      (used.check spec).2.stats = ⟨5, 5, 0, 5, 1, 1, 0⟩ := by
  intro past spec used
  have hv : spec.validate = .ok () := rfl
  obtain ⟨hreport, hstats⟩ := check_after (small .loop .depthFirst) past hv
  refine ⟨by decide +kernel, ?_, ?_⟩
  · rw [hreport]
    decide +kernel
  · rw [hstats]
    decide +kernel

end Checker

end CostCTL
