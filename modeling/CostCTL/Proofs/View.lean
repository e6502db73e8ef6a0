import CostCTL.Proofs.Move
import Mathlib.Data.List.Basic

/-!
# The search in a run

A run shows a search: its store read as plain lists (`Run.view`). Each operation of a run changes
what is seen in one way (`Run.Does`), provided that the records it needs are there.
-/

namespace CostCTL

/-- Pending jobs are on record, and each session has a key. -/
structure Store.Sound (s : Store) : Prop where
  jobs : ∀ i ∈ s.pending.toList, ∃ j, s.job? i = some j
  keys : s.sessionKeys.toList.length = s.sessions.toList.length

/-- The pending jobs, in the order they came. -/
def Store.queue (s : Store) : List Job := s.pending.toList.filterMap s.job?

def Call.told? : Call → Option (SessionId × List RevisitId)
  | .waiters i ws => some (i, ws)
  | _ => none

/-- The waiters that were taken so far, with the session they waited for. -/
def Run.told (r : Run) : List (SessionId × List RevisitId) := r.calls.toList.filterMap Call.told?

def Run.view (r : Run) (tasks : List Task) : Search where
  order := r.store.config.order
  queue := r.store.queue
  visited := r.store.visited.members.toList
  revisits := r.store.revisits.toList
  keys := r.store.sessionKeys.toList
  sessions := r.store.sessions.toList
  resolved := r.resolved.toList
  told := r.told
  tasks := tasks

/-- From `r` the computation gives `a`, and changes what is seen by `f`. -/
def Run.Does {α : Type} (r : Run) (m : RunM α) (a : α) (f : Search → Search) : Prop :=
  ∃ r', m r = .ok a r' ∧ r'.store.Sound ∧ ∀ ts, r'.view ts = f (r.view ts)

namespace Run.Does

variable {α β : Type} {r : Run} {m : RunM α} {a : α} {b : β} {f h : Search → Search}

theorem bind {k : α → RunM β} (hm : r.Does m a f)
    (hk : ∀ r' : Run, r'.store.Sound → (∀ ts, r'.view ts = f (r.view ts)) → r'.Does (k a) b h) :
    r.Does (m >>= k) b (h ∘ f) := by
  obtain ⟨r₁, h₁, sound₁, view₁⟩ := hm
  obtain ⟨r₂, h₂, sound₂, view₂⟩ := hk r₁ sound₁ view₁
  refine ⟨r₂, ?_, sound₂, fun ts => by rw [view₂, view₁, Function.comp]⟩
  change EStateM.bind m k r = _
  rw [EStateM.bind, h₁]
  exact h₂

theorem pure (hs : r.store.Sound) (a : α) : r.Does (Pure.pure a) a id := ⟨r, rfl, hs, fun _ => rfl⟩

end Run.Does

section Records

variable {r : Run} {ts : List Task}

theorem Store.session?_eq (s : Store) (i : SessionId) :
    s.session? i = Numbered.get? s.sessions.toList i.index := by
  obtain ⟨i⟩ := i
  cases i <;> simp [session?, Numbered.get?]

theorem Store.revisitRecord?_eq (s : Store) (i : RevisitId) :
    s.revisitRecord? i = Numbered.get? s.revisits.toList i.index := by
  obtain ⟨i⟩ := i
  cases i <;> simp [revisitRecord?, Numbered.get?]

theorem Run.session?_view (r : Run) (ts : List Task) (i : SessionId) :
    (r.view ts).session? i = r.store.session? i := (r.store.session?_eq i).symm

theorem Run.record?_view (r : Run) (ts : List Task) (i : RevisitId) :
    (r.view ts).record? i = r.store.revisitRecord? i := (r.store.revisitRecord?_eq i).symm

/-- Writing to a session that is on record. -/
theorem Store.toList_modifySession {s : Store} {i : SessionId} {t : Session}
    (h : s.session? i = some t) (f : Session → Session) :
    (s.modifySession i f).sessions.toList = Numbered.modify s.sessions.toList f i.index := by
  obtain ⟨i⟩ := i
  cases i with
  | zero => cases h
  | succ i => simp [modifySession, Numbered.modify]

theorem Store.session?_modifySession {s : Store} {i : SessionId} {x : Session}
    (h : s.session? i = some x) (f : Session → Session) (k : SessionId) :
    (s.modifySession i f).session? k = if k = i then some (f x) else s.session? k := by
  rw [Store.session?_eq, toList_modifySession h, Numbered.get?_modify, ← Store.session?_eq]
  by_cases hk : k = i
  · rw [if_pos hk, if_pos (congrArg _ hk), hk, h]
    rfl
  · have : k.index ≠ i.index := fun he => hk (by cases k; cases i; cases he; rfl)
    rw [if_neg hk, if_neg this]

end Records

/-- Note a waiter, if the session is pending. -/
def Session.enroll (waiter : RevisitId) (t : Session) : Session :=
  if t.result.isPending then { t with waiters := t.waiters.pushBack waiter } else t

namespace RunM

variable {α : Type} {r : Run}

theorem bind_run {β : Type} {m : RunM α} {k : α → RunM β} {a : α} {r' : Run}
    (h : m r = .ok a r') : (m >>= k) r = k a r' := by
  change EStateM.bind m k r = _
  rw [EStateM.bind, h]

theorem bind_error {β : Type} {m : RunM α} {k : α → RunM β} {e : Halt} {r' : Run}
    (h : m r = .error e r') : (m >>= k) r = .error e r' := by
  change EStateM.bind m k r = _
  rw [EStateM.bind, h]

theorem view_call {call : Call} (h : call.told? = none) (store : Store) (ts : List Task) :
    ({ r with store, calls := r.calls.push call } : Run).view ts = ({ r with store } : Run).view ts := by
  simp [Run.view, Run.told, h]

theorem does_update {op : Store → α × Store} {call : α → Call} {a : α} {s : Store}
    {f : Search → Search} (hop : op r.store = (a, s)) (hc : (call a).told? = none)
    (hs : s.Sound) (hv : ∀ ts, ({ r with store := s } : Run).view ts = f (r.view ts)) :
    r.Does (update op call) a f := by
  refine ⟨{ r with store := s, calls := r.calls.push (call a) }, ?_, hs, fun ts => ?_⟩
  · simp only [update, hop]
  · rw [view_call hc, hv]

theorem does_update? {op : Store → Option α × Store} {call : α → Call} {a : α} {s : Store}
    {fault : Fault} {f : Search → Search} (hop : op r.store = (some a, s))
    (hc : (call a).told? = none) (hs : s.Sound)
    (hv : ∀ ts, ({ r with store := s } : Run).view ts = f (r.view ts)) :
    r.Does (update? fault op call) a f := by
  refine ⟨{ r with store := s, calls := r.calls.push (call a) }, ?_, hs, fun ts => ?_⟩
  · simp only [update?, hop]
  · rw [view_call hc, hv]

theorem does_note (hs : r.store.Sound) (n : Notice) : r.Does (note n) () id :=
  ⟨r.note n, rfl, hs, fun _ => rfl⟩

theorem sound_modifySession {s : Store} {i : SessionId} {t : Session} (hs : s.Sound)
    (hi : s.session? i = some t) (f : Session → Session) : (s.modifySession i f).Sound := by
  refine ⟨hs.jobs, ?_⟩
  rw [Store.toList_modifySession hi, Numbered.length_modify]
  exact hs.keys

theorem view_modifySession {i : SessionId} {t : Session} (hi : r.store.session? i = some t)
    (f : Session → Session) (ts : List Task) :
    ({ r with store := r.store.modifySession i f } : Run).view ts =
      (r.view ts).modifySession i f := by
  rw [Run.view, Store.toList_modifySession hi]
  rfl

/-! ### Jobs -/

theorem does_retain {i : SessionId} {t : Session} (hs : r.store.Sound)
    (hi : r.store.session? i = some t) : r.Does (retain i) () (·.retain 1 (some i)) := by
  refine does_update? (s := r.store.modifySession i _) ?_ rfl (sound_modifySession hs hi _)
    (view_modifySession hi _)
  rw [Store.retain?, hi]

theorem queue_put {s : Store} (hs : s.Sound) (j : Job) :
    s.pending.toList.filterMap (fun i => (s.jobs.put j).2.get? i.index) = s.queue := by
  refine List.filterMap_congr fun i hi => ?_
  obtain ⟨k, hk⟩ := hs.jobs i hi
  rw [Table.get?_put_of_eq_some hk]
  exact hk.symm

/-- Put a job on the worklist, on behalf of nobody. -/
def enqueue (j : Job) : RunM Unit := do
  let i ← update (·.internJob j) (.intern · j)
  modify fun r => { r with store := r.store.enqueue i }

/-- Interning a job leaves the worklist as it is, and its number finds it. -/
theorem does_enqueue (hs : r.store.Sound) (j : Job) :
    r.Does (enqueue j) () fun s => { s with queue := s.queue ++ [j] } := by
  have hput := Table.get?_put_self r.store.jobs j
  refine ⟨{ r with
    store := { r.store with jobs := (r.store.jobs.put j).2 }.enqueue ⟨(r.store.jobs.put j).1.1⟩
    calls := r.calls.push (.intern ⟨(r.store.jobs.put j).1.1⟩ j) }, rfl, ⟨fun i hi => ?_, hs.keys⟩,
    fun ts => ?_⟩
  · simp only [Store.enqueue, Deque.toList_pushBack, List.mem_append, List.mem_singleton] at hi
    rcases hi with hi | rfl
    · obtain ⟨k, hk⟩ := hs.jobs i hi
      exact ⟨k, Table.get?_put_of_eq_some hk⟩
    · exact ⟨j, hput⟩
  · have hq := queue_put hs j
    rw [view_call rfl]
    simp only [Run.view, Store.queue, Store.enqueue, Deque.toList_pushBack, List.filterMap_append]
    congr 1
    simp only [List.filterMap_cons, List.filterMap_nil, Store.job?, hput]
    exact congrArg (· ++ [j]) hq

theorem does_spawn {j : Job} (hs : r.store.Sound) (hj : (r.view []).result? j.session ≠ none) :
    r.Does (spawn j) () (·.push j.session [j]) := by
  unfold spawn
  cases hj' : j.session with
  | none => exact does_enqueue hs j
  | some i =>
    rw [hj', Search.result?, Run.session?_view, ne_eq, Option.map_eq_none_iff] at hj
    obtain ⟨t, ht⟩ := Option.ne_none_iff_exists'.mp hj
    exact (does_retain hs ht).bind (k := fun _ => enqueue j) fun r' hs' _ => does_enqueue hs' j

theorem does_spawnAll {session : Option SessionId} {jobs : List Job} (hs : r.store.Sound)
    (hj : ∀ j ∈ jobs, j.session = session) (hr : (r.view []).result? session ≠ none) :
    r.Does (jobs.forM spawn) () (·.push session jobs) := by
  induction jobs generalizing r with
  | nil =>
    exact ⟨r, rfl, hs, fun ts => (Search.push_nil (r.view ts) session).symm⟩
  | cons j jobs ih =>
    have hj₁ : j.session = session := hj j List.mem_cons_self
    have first : r.Does (spawn j) () (·.push session [j]) := by
      have := does_spawn (j := j) hs (by rwa [hj₁])
      rwa [hj₁] at this
    obtain ⟨r', hm, hs', hv⟩ := first.bind (k := fun _ => jobs.forM spawn) fun r' hs' hv' =>
      ih hs' (fun k hk => hj k (List.mem_cons_of_mem j hk)) (by rwa [hv', Search.result?_push])
    exact ⟨r', hm, hs', fun ts => by rw [hv, Function.comp, Search.push_push]⟩

theorem does_visit (hs : r.store.Sound) (k : VisitKey) :
    r.Does (visit k) (decide (k ∈ (r.view []).visited)) fun s =>
      { s with visited := if k ∈ s.visited then s.visited else s.visited ++ [k] } := by
  refine does_update (s := { r.store with visited := (r.store.visited.visit k).2 }) ?_ rfl
    ⟨hs.jobs, hs.keys⟩ fun ts => ?_
  · exact Prod.ext (SeenSet.visit_fst r.store.visited k) rfl
  · simp only [Run.view, SeenSet.members_visit, Table.toList_put]
    rfl

/-! ### Revisits -/

theorem does_addRevisit (hs : r.store.Sound) (v : Revisit) :
    r.Does (addRevisit v) (r.view []).nextRevisit (·.suspend v) := by
  refine does_update (s := { r.store with revisits := r.store.revisits.push ⟨v, false⟩ }) rfl rfl
    ⟨hs.jobs, hs.keys⟩ fun ts => ?_
  simp only [Run.view, Search.suspend, Array.toList_push]
  rfl

theorem does_markResumed {i : RevisitId} {e : RevisitEntry} (hs : r.store.Sound)
    (hi : (r.view []).record? i = some e) :
    r.Does (markResumed i) (!e.resumed) (·.markResumed i) := by
  rw [Run.record?_view] at hi
  refine does_update? (s := { r.store with
    revisits := r.store.revisits.modify (i.index - 1) fun e => { e with resumed := true } })
    ?_ rfl ⟨hs.jobs, hs.keys⟩ fun ts => ?_
  · rw [Store.markResumed?, hi]
  · obtain ⟨i⟩ := i
    cases i with
    | zero => cases hi
    | succ i =>
      simp only [Run.view, Search.markResumed, Numbered.modify, Array.toList_modify]
      rfl

/-! ### Sessions -/

theorem does_complete {i : SessionId} {t : Session} (hs : r.store.Sound)
    (hi : (r.view []).session? i = some t) (ht : t.result = .pending) (result : SessionResult) :
    r.Does (complete i result) () (·.complete i result) := by
  rw [Run.session?_view] at hi
  have first : r.Does (update? (.missingSession i) (·.complete? i result) (.complete i result)) true
      (·.modifySession i fun t => { t with result }) := by
    refine does_update? (s := r.store.modifySession i _) ?_ rfl (sound_modifySession hs hi _)
      (view_modifySession hi _)
    simp [Store.complete?, hi, ht, SessionResult.isPending]
  refine first.bind (h := fun s => { s with resolved := s.resolved ++ [i] }) fun r' hs' _ => ?_
  refine ⟨{ r' with resolved := r'.resolved.pushBack i }, rfl, hs', fun ts => ?_⟩
  simp only [Run.view, Deque.toList_pushBack]
  rfl

theorem does_complete_late {i : SessionId} {t : Session} (hs : r.store.Sound)
    (hi : (r.view []).session? i = some t) (ht : t.result ≠ .pending) (result : SessionResult) :
    r.Does (complete i result) () id := by
  rw [Run.session?_view] at hi
  have hp : t.result.isPending = false := by
    cases h : t.result <;> simp_all [SessionResult.isPending]
  have first : r.Does (update? (.missingSession i) (·.complete? i result) (.complete i result))
      false id := by
    refine does_update? (s := r.store) ?_ rfl hs fun _ => rfl
    simp [Store.complete?, hi, hp]
  exact first.bind (h := id) fun r' hs' _ => does_note hs' _

theorem does_recordExceeded {i : SessionId} {t : Session} (hs : r.store.Sound)
    (hi : (r.view []).session? i = some t) (x : Counterexample) :
    r.Does (recordExceeded i x) () (·.exceed i x) := by
  rw [Run.session?_view] at hi
  refine does_update? (s := r.store.modifySession i _) ?_ rfl (sound_modifySession hs hi _)
    (view_modifySession hi _)
  rw [Store.recordExceeded?, hi]

theorem does_releaseOne {i : SessionId} {t : Session} (hs : r.store.Sound)
    (hi : (r.view []).session? i = some t) (ht : t.outstanding ≠ 0) :
    r.Does (releaseOne i) (decide (t.outstanding = 1)) (·.release i) := by
  rw [Run.session?_view] at hi
  refine does_update? (s := r.store.modifySession i _) ?_ rfl (sound_modifySession hs hi _)
    (view_modifySession hi _)
  simp [Store.release?, hi, ht]

theorem openSession_eq (s : Store) (k : SessionKey) (waiter : RevisitId) :
    s.openSession k waiter = ((⟨(s.sessionKeys.put k).1.1⟩, (s.sessionKeys.put k).1.2), { s with
      sessionKeys := (s.sessionKeys.put k).2
      sessions := (if (s.sessionKeys.put k).1.2 then s.sessions.push .fresh else s.sessions).modify
        ((s.sessionKeys.put k).1.1 - 1) (Session.enroll waiter)
      shared := if (s.sessionKeys.put k).1.2 then s.shared else s.shared + 1 }) := rfl

/-- A key that has no session gets one, which the waiter waits for. -/
theorem does_openSession {k : SessionKey} (hs : r.store.Sound) (hk : k ∉ (r.view []).keys)
    (waiter : RevisitId) :
    r.Does (openSession k waiter) ((r.view []).nextSession, true) fun s => { s with
      keys := s.keys ++ [k]
      sessions := s.sessions ++ [⟨.pending, Deque.empty.pushBack waiter, 0, none⟩] } := by
  have hput : (r.store.sessionKeys.put k).1 = (r.store.sessionKeys.toList.length + 1, true) :=
    Table.put_of_not_mem hk
  have hkeys : (r.store.sessionKeys.put k).2.toList = r.store.sessionKeys.toList ++ [k] :=
    (Table.toList_put _ k).trans (if_neg hk)
  have hopen := openSession_eq r.store k waiter
  simp only [hput, if_true] at hopen
  have hsess : (r.store.openSession k waiter).2.sessions.toList =
      r.store.sessions.toList ++ [⟨.pending, Deque.empty.pushBack waiter, 0, none⟩] := by
    rw [hopen, Array.toList_modify, Array.toList_push, hs.keys]
    exact Numbered.modify_concat _ _ _
  have hnew : (r.store.openSession k waiter).2.sessionKeys = (r.store.sessionKeys.put k).2 := by
    rw [hopen]
  refine does_update (s := (r.store.openSession k waiter).2) ?_ rfl ⟨?_, ?_⟩ fun ts => ?_
  · have : (r.store.openSession k waiter).1 = ((r.view []).nextSession, true) := by
      rw [hopen]
      rfl
    exact Prod.ext this rfl
  · rw [hopen]
    exact hs.jobs
  · simp [hnew, hkeys, hsess, hs.keys]
  · rw [Run.view, hnew, hkeys, hsess, hopen]
    rfl

theorem does_joinSession {k : SessionKey} {i : SessionId} {t : Session} (hs : r.store.Sound)
    (hk : (r.view []).key? i = some k) (hi : (r.view []).session? i = some t) (waiter : RevisitId) :
    r.Does (openSession k waiter) (i, false) (·.modifySession i (Session.enroll waiter)) := by
  rw [Run.session?_view] at hi
  have hput : (r.store.sessionKeys.put k).1 = (i.index, false) ∧
      (r.store.sessionKeys.put k).2.toList = r.store.sessionKeys.toList := by
    refine Table.put_of_get? (.trans ?_ hk)
    obtain ⟨i⟩ := i
    cases i with
    | zero => rfl
    | succ i => exact Table.get?_succ _ i
  have hopen := openSession_eq r.store k waiter
  simp only [hput.1, Bool.false_eq_true, if_false] at hopen
  have hsess := sound_modifySession hs hi (Session.enroll waiter)
  refine does_update (s := { r.store.modifySession i (Session.enroll waiter) with
    sessionKeys := (r.store.sessionKeys.put k).2
    shared := r.store.shared + 1 }) hopen rfl ⟨hs.jobs, ?_⟩ fun ts => ?_
  · rw [hput.2]
    exact hsess.keys
  · rw [← view_modifySession hi (Session.enroll waiter) ts, Run.view, hput.2]
    rfl

theorem takeWaiters_run {i : SessionId} {t : Session} (hs : r.store.Sound)
    (hi : (r.view []).session? i = some t) :
    ∃ r', takeWaiters i r = .ok t.waiters.toList r' ∧ r'.store.Sound ∧ ∀ ts, r'.view ts =
      { (r.view ts).dismiss i with
        told := (r.view ts).told ++ [(i, t.waiters.toList)] } := by
  rw [Run.session?_view] at hi
  let f (t : Session) : Session := { t with waiters := .empty }
  refine ⟨{ r with
    store := r.store.modifySession i f
    calls := r.calls.push (.waiters i t.waiters.toList) }, ?_, sound_modifySession hs hi f,
    fun ts => ?_⟩
  · simp only [takeWaiters, update?, Store.takeWaiters?, hi]
    rfl
  · simp only [Run.view, Run.told, Store.toList_modifySession hi, Array.toList_push,
      List.filterMap_append]
    rfl

/-! ### Reading -/

theorem get_bind {β : Type} (k : Run → RunM β) : (get >>= k) r = k r r := rfl

theorem ask_run {fault : Fault} {query : Store → Option α} {a : α} (h : query r.store = some a) :
    ask fault query r = .ok a r := by
  change expect fault (query r.store) r = .ok a r
  rw [h]
  rfl

theorem sessionResult_run {i : SessionId} {t : Session} (h : (r.view []).session? i = some t) :
    sessionResult i r = .ok t.result r := by
  rw [Run.session?_view] at h
  exact ask_run (by rw [Store.sessionResult?, h, Option.map_some])

theorem isSettled_run {session : Option SessionId} {result : SessionResult}
    (h : (r.view []).result? session = some result) :
    isSettled session r = .ok (!result.isPending) r := by
  cases session with
  | none =>
    cases h
    rfl
  | some i =>
    obtain ⟨t, ht, rfl⟩ := Option.map_eq_some_iff.mp h
    exact bind_run (sessionResult_run ht)

theorem revisit_run {i : RevisitId} {e : RevisitEntry} (h : (r.view []).record? i = some e) :
    revisit i r = .ok e.revisit r := by
  rw [Run.record?_view] at h
  exact ask_run (by rw [Store.revisit?, h, Option.map_some])

theorem nodeAt_run {g : Kripke} {i : NodeId} {node : Node} (h : g.node? i = some node) :
    nodeAt g i r = .ok node r := by
  rw [nodeAt, h]
  rfl

theorem edgesAt_run {g : Kripke} {i : NodeId} (h : i.index < g.size) :
    edgesAt g i r = .ok (g.successors i) r := by
  have hi : i.index < g.edges.size := by rw [g.size_edges]; exact h
  have he : g.successors? i = some (g.successors i) := by
    simp [Kripke.successors, Kripke.successors?, hi]
  rw [edgesAt, he]
  rfl

/-! ### The next session and the next job -/

theorem nextResolved_run {i : SessionId} {rest : List SessionId} (hs : r.store.Sound)
    (h : (r.view []).resolved = i :: rest) :
    r.Does nextResolved (some i) fun s => { s with resolved := rest } := by
  have hr : r.resolved.toList = i :: rest := h
  cases hp : r.resolved.popFront? with
  | none => rw [Deque.toList_eq_nil_of_popFront? hp] at hr; cases hr
  | some p =>
    obtain ⟨k, d⟩ := p
    rw [Deque.toList_eq_of_popFront? hp] at hr
    obtain ⟨rfl, rfl⟩ := List.cons.inj hr
    refine ⟨{ r with resolved := d }, ?_, hs, fun ts => rfl⟩
    rw [nextResolved, get_bind, hp]
    rfl

theorem nextResolved_run_nil (h : (r.view []).resolved = []) : nextResolved r = .ok none r := by
  have hr : r.resolved.toList = [] := h
  cases hp : r.resolved.popFront? with
  | none =>
    rw [nextResolved, get_bind, hp]
    rfl
  | some p => rw [Deque.toList_eq_of_popFront? hp] at hr; cases hr

theorem popPending?_eq_some {s : Store} (hs : s.Sound) {i : JobId} {d : Deque JobId}
    (h : s.popPending? = some (i, d)) : ∃ j, s.job? i = some j ∧ (∀ k ∈ d.toList, k ∈ s.pending.toList) ∧
      (s.config.order = .depthFirst → s.queue = d.toList.filterMap s.job? ++ [j]) ∧
      (s.config.order = .breadthFirst → s.queue = j :: d.toList.filterMap s.job?) := by
  cases ho : s.config.order with
  | depthFirst =>
    rw [Store.popPending?, ho] at h
    have hl := Deque.toList_eq_of_popBack? h
    obtain ⟨j, hj⟩ := hs.jobs i (by simp [hl])
    refine ⟨j, hj, fun k hk => by simp [hl, hk], fun _ => ?_, fun h => by cases h⟩
    simp [Store.queue, hl, hj]
  | breadthFirst =>
    rw [Store.popPending?, ho] at h
    have hl := Deque.toList_eq_of_popFront? h
    obtain ⟨j, hj⟩ := hs.jobs i (by simp [hl])
    refine ⟨j, hj, fun k hk => by simp [hl, hk], fun h => (by cases h), fun _ => ?_⟩
    simp [Store.queue, hl, hj]

theorem popPending?_eq_none {s : Store} (h : s.popPending? = none) : s.queue = [] := by
  have hl : s.pending.toList = [] := by
    rw [Store.popPending?] at h
    split at h
    · exact Deque.toList_eq_nil_of_popBack? h
    · exact Deque.toList_eq_nil_of_popFront? h
  simp [Store.queue, hl]

/-- Unless the limit is reached, the next job is taken if there is one. -/
theorem nextPending_run (hs : r.store.Sound) (limit : Option Nat) :
    (∃ r', nextPending limit r = .ok none r' ∧ r'.store.Sound ∧ (∀ ts, r'.view ts = r.view ts) ∧
      (limit = none → (r.view []).queue = [])) ∨
    ∃ i j rest r', nextPending limit r = .ok (some i) r' ∧ r'.store.Sound ∧ job i r' = .ok j r' ∧
      ∀ ts, (r.view ts).Takes j rest ∧ r'.view ts = { r.view ts with queue := rest } := by
  by_cases hl : limit.any (· ≤ r.pops) = true
  · refine .inl ⟨r.call .limit, ?_, hs, fun ts => ?_, ?_⟩
    · rw [nextPending, get_bind, if_pos hl]
      rfl
    · simp [Run.view, Run.call, Run.told, Call.told?]
    · rintro rfl
      cases hl
  · have hrun : nextPending limit r = update (·.nextPending) .pop { r with pops := r.pops + 1 } := by
      rw [nextPending, get_bind, if_neg hl]
      rfl
    cases hp : r.store.popPending? with
    | none =>
      refine .inl ⟨{ r with pops := r.pops + 1, calls := r.calls.push (.pop none) }, ?_, hs,
        fun ts => ?_, fun _ => popPending?_eq_none hp⟩
      · simp [hrun, update, Store.nextPending, hp]
      · simp [Run.view, Run.told, Call.told?]
    | some p =>
      obtain ⟨i, d⟩ := p
      obtain ⟨j, hj, hsub, hdf, hbf⟩ := popPending?_eq_some hs hp
      refine .inr ⟨i, j, d.toList.filterMap r.store.job?, { r with
        store := { r.store with pending := d }
        pops := r.pops + 1
        calls := r.calls.push (.pop (some i)) }, ?_, ⟨fun k hk => hs.jobs k (hsub k hk), hs.keys⟩,
        ask_run hj, fun ts => ⟨?_, ?_⟩⟩
      · simp [hrun, update, Store.nextPending, hp]
      · cases ho : r.store.config.order with
        | depthFirst => simpa [Search.Takes, Run.view, ho] using hdf ho
        | breadthFirst => simpa [Search.Takes, Run.view, ho] using hbf ho
      · simp [Run.view, Run.told, Call.told?]
        rfl

end RunM

end CostCTL
