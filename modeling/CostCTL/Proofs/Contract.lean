import CostCTL.Proofs.View
import Mathlib.Data.List.Induction

/-!
# What a store answers

A store may be used in any order, also in ways that no search does. What it answers is told by its
history: the operations since it was last reset, with the answers they had (`Store.History`).
Numbers are given once, to jobs and to session keys; a session keeps the first outcome that it is
given, the first branch that left its window, and the waiters that came before its outcome, until
they are taken; and the worklist is a stack or a queue. An operation on a record that is not there
has no answer, and is no event of a history.

A pending result is no outcome. A session that is completed with it can be completed again
(`Store.complete_pending_again`).
-/

namespace CostCTL.Store

/-! ### Histories -/

/-- An operation that was done, with its answer. -/
inductive Event where
  | internJob (j : Job) (i : JobId)
  | job (i : JobId) (j : Job)
  | enqueue (i : JobId)
  | nextPending (i : Option JobId)
  | visit (k : VisitKey) (seen : Bool)
  | recordDecomposed
  | addRevisit (r : Revisit) (i : RevisitId)
  | revisit (i : RevisitId) (r : Revisit)
  | markResumed (i : RevisitId) (first : Bool)
  | openSession (k : SessionKey) (waiter : RevisitId) (i : SessionId) (created : Bool)
  | sessionResult (i : SessionId) (result : SessionResult)
  | complete (i : SessionId) (result : SessionResult) (first : Bool)
  | recordExceeded (i : SessionId) (c : Counterexample)
  | exceeded (i : SessionId) (c : Option Counterexample)
  | takeWaiters (i : SessionId) (waiters : List RevisitId)
  | retain (i : SessionId)
  | release (i : SessionId) (last : Bool)
  | pendingSessions (n : Nat)
  | stats (stats : Stats)

/-- The event is an operation on the store `s`, which leaves `t` behind. -/
inductive Gives (s : Store) : Event → Store → Prop where
  | internJob (j : Job) : Gives s (.internJob j (s.internJob j).1) (s.internJob j).2
  | job {i : JobId} {j : Job} (h : s.job? i = some j) : Gives s (.job i j) s
  | enqueue (i : JobId) : Gives s (.enqueue i) (s.enqueue i)
  | nextPending : Gives s (.nextPending s.nextPending.1) s.nextPending.2
  | visit (k : VisitKey) : Gives s (.visit k (s.visit k).1) (s.visit k).2
  | recordDecomposed : Gives s .recordDecomposed s.recordDecomposed
  | addRevisit (r : Revisit) : Gives s (.addRevisit r (s.addRevisit r).1) (s.addRevisit r).2
  | revisit {i : RevisitId} {r : Revisit} (h : s.revisit? i = some r) : Gives s (.revisit i r) s
  | markResumed {i : RevisitId} {first : Bool} {t : Store}
      (h : s.markResumed? i = (some first, t)) : Gives s (.markResumed i first) t
  | openSession (k : SessionKey) (w : RevisitId) :
    Gives s (.openSession k w (s.openSession k w).1.1 (s.openSession k w).1.2) (s.openSession k w).2
  | sessionResult {i : SessionId} {result : SessionResult} (h : s.sessionResult? i = some result) :
    Gives s (.sessionResult i result) s
  | complete {i : SessionId} {result : SessionResult} {first : Bool} {t : Store}
      (h : s.complete? i result = (some first, t)) : Gives s (.complete i result first) t
  | recordExceeded {i : SessionId} {x : Counterexample} {t : Store}
      (h : s.recordExceeded? i x = (some (), t)) : Gives s (.recordExceeded i x) t
  | exceeded {i : SessionId} {x : Option Counterexample} (h : s.exceeded? i = some x) :
    Gives s (.exceeded i x) s
  | takeWaiters {i : SessionId} {ws : List RevisitId} {t : Store}
      (h : s.takeWaiters? i = (some ws, t)) : Gives s (.takeWaiters i ws) t
  | retain {i : SessionId} {t : Store} (h : s.retain? i = (some (), t)) : Gives s (.retain i) t
  | release {i : SessionId} {last : Bool} {t : Store} (h : s.release? i = (some last, t)) :
    Gives s (.release i last) t
  | pendingSessions : Gives s (.pendingSessions s.pendingSessions) s
  | stats : Gives s (.stats s.stats) s

/-- The store came to be by these events since it was new or last reset. -/
inductive History (config : StoreConfig) : List Event → Store → Prop where
  | start {s : Store} (h : ofConfig? config = some s) : History config [] s
  | step {h : List Event} {s t : Store} {e : Event} (before : History config h s)
      (gives : s.Gives e t) : History config (h ++ [e]) t
  | reset {h : List Event} {s : Store} (before : History config h s) : History config [] s.reset

/-! ### What a history tells -/

/-- The outcome that the event gives to a session. -/
def Event.outcome? (i : SessionId) : Event → Option SessionResult
  | .complete k result _ => if k = i ∧ result ≠ .pending then some result else none
  | _ => none

/-- The first outcome of a session; pending if it has none. -/
def outcome (i : SessionId) (h : List Event) : SessionResult :=
  (h.findSome? (Event.outcome? i)).getD .pending

def Event.excess? (i : SessionId) : Event → Option Counterexample
  | .recordExceeded k x => if k = i then some x else none
  | _ => none

/-- The first branch that was recorded for a session. -/
def excess (i : SessionId) (h : List Event) : Option Counterexample :=
  h.findSome? (Event.excess? i)

def Event.waiter? (i : SessionId) : Event → Option RevisitId
  | .openSession _ w k _ => if k = i then some w else none
  | _ => none

def Event.dismisses (i : SessionId) : Event → Bool
  | .takeWaiters k _ => k == i
  | _ => false

/-- The waiters that came to a session while it had no outcome, and were not taken since. -/
def parked (i : SessionId) (h : List Event) : List RevisitId :=
  (List.range h.length).filterMap fun p =>
    if outcome i (h.take p) = .pending ∧ (h.drop p).all (!·.dismisses i) then
      h[p]?.bind (Event.waiter? i)
    else none

/-- The worklist after one more event. Jobs are added at its end and taken there or at its front. -/
def Event.shift (order : PendingOrder) (l : List JobId) : Event → List JobId
  | .enqueue i => l ++ [i]
  | .nextPending _ => match order with
    | .depthFirst => l.dropLast
    | .breadthFirst => l.tail
  | _ => l

/-- The end of the worklist that a job is taken from. -/
def upNext : PendingOrder → List JobId → Option JobId
  | .depthFirst, l => l.getLast?
  | .breadthFirst, l => l.head?

def worklist (order : PendingOrder) (h : List Event) : List JobId := h.foldl (Event.shift order) []

def Event.enqueued? : Event → Option JobId
  | .enqueue i => some i
  | _ => none

def Event.popped? : Event → Option JobId
  | .nextPending i => i
  | _ => none

/-- The store answers as its history tells. -/
structure Answers (order : PendingOrder) (h : List Event) (s : Store) : Prop where
  internJob : ∀ j i, .internJob j i ∈ h → ∀ j', (s.internJob j').1 = i ↔ j' = j
  job : ∀ j i, .internJob j i ∈ h → s.job? i = some j
  nextPending : s.nextPending.1 = upNext order (worklist order h)
  popped : (h.filterMap Event.enqueued?).Perm (h.filterMap Event.popped? ++ worklist order h)
  visit : ∀ k, (s.visit k).1 = true ↔ ∃ seen, .visit k seen ∈ h
  addRevisit : ∀ r i, .addRevisit r i ∈ h → ∀ r', (s.addRevisit r').1 ≠ i
  revisit : ∀ r i, .addRevisit r i ∈ h → s.revisit? i = some r
  markResumed : ∀ r i, .addRevisit r i ∈ h → ∃ first, (s.markResumed? i).1 = some first ∧
    (first = true ↔ ∀ b, .markResumed i b ∉ h)
  openSession : ∀ k w i b, .openSession k w i b ∈ h →
    ∀ k' w', (s.openSession k' w').1.1 = i ↔ k' = k
  created : ∀ k w, (s.openSession k w).1.2 = true ↔ ∀ w' i b, .openSession k w' i b ∉ h
  sessionResult : ∀ k w i b, .openSession k w i b ∈ h → s.sessionResult? i = some (outcome i h)
  complete : ∀ k w i b, .openSession k w i b ∈ h →
    ∀ result, (s.complete? i result).1 = some (decide (outcome i h = .pending))
  exceeded : ∀ k w i b, .openSession k w i b ∈ h → s.exceeded? i = some (excess i h)
  takeWaiters : ∀ k w i b, .openSession k w i b ∈ h → (s.takeWaiters? i).1 = some (parked i h)

/-! ### One more event -/

variable {s t : Store} {order : PendingOrder} {config : StoreConfig} {h : List Event} {e : Event}
  {i k : SessionId} {u : Session} {w : RevisitId} {r : RevisitEntry}

theorem Event.outcome?_ne_pending (i : SessionId) (e : Event) : e.outcome? i ≠ some .pending := by
  cases e with
  | complete k result first =>
    rw [Event.outcome?]
    split
    · next hr => simpa using hr.2
    · simp
  | _ => simp [Event.outcome?]

theorem outcome_concat (i : SessionId) (h : List Event) (e : Event) :
    outcome i (h ++ [e]) =
      if outcome i h = .pending then (e.outcome? i).getD .pending else outcome i h := by
  rw [outcome, List.findSome?_append, outcome]
  cases hf : h.findSome? (Event.outcome? i) with
  | none => simp
  | some result =>
    have hne : result ≠ .pending := by
      rintro rfl
      obtain ⟨e', -, he'⟩ := List.exists_of_findSome?_eq_some hf
      exact e'.outcome?_ne_pending i he'
    simp [hne]

theorem excess_concat (i : SessionId) (h : List Event) (e : Event) :
    excess i (h ++ [e]) = (excess i h).or (e.excess? i) := by
  simp [excess, List.findSome?_append]

theorem parked_concat (i : SessionId) (h : List Event) (e : Event) :
    parked i (h ++ [e]) = if e.dismisses i then [] else
      parked i h ++ if outcome i h = .pending then (e.waiter? i).toList else [] := by
  rw [parked, List.length_append, List.length_singleton, List.range_succ, List.filterMap_append]
  have hbefore : ∀ p ∈ List.range h.length,
      (if outcome i ((h ++ [e]).take p) = .pending ∧ ((h ++ [e]).drop p).all (!·.dismisses i) then
        (h ++ [e])[p]?.bind (Event.waiter? i) else none) =
      if e.dismisses i then none
      else if outcome i (h.take p) = .pending ∧ (h.drop p).all (!·.dismisses i) then
        h[p]?.bind (Event.waiter? i) else none := by
    intro p hp
    have hlt := List.mem_range.mp hp
    rw [List.take_append_of_le_length (Nat.le_of_lt hlt),
      List.drop_append_of_le_length (Nat.le_of_lt hlt), List.getElem?_append_left hlt,
      List.all_append]
    by_cases hd : e.dismisses i = true <;> simp [hd]
  rw [List.filterMap_congr hbefore]
  by_cases hd : e.dismisses i = true
  · simp [hd]
  · by_cases ho : outcome i h = .pending <;> cases hw : e.waiter? i <;> simp [hd, ho, hw, parked]

/-! ### What an event changes -/

/-- The session that the event writes to, other than by opening it. -/
def Event.subject? : Event → Option SessionId
  | .complete i .. | .recordExceeded i _ | .takeWaiters i _ | .retain i | .release i _ => some i
  | _ => none

def Event.effect : Event → Session → Session
  | .complete _ result _, u => if u.result.isPending then { u with result } else u
  | .recordExceeded _ x, u => { u with exceeded := u.exceeded.or (some x) }
  | .takeWaiters .., u => { u with waiters := .empty }
  | .retain _, u => { u with outstanding := u.outstanding + 1 }
  | .release .., u => { u with outstanding := u.outstanding - 1 }
  | _, u => u

/-- The event changes no record. -/
def Event.isIdle : Event → Bool
  | .job .. | .recordDecomposed | .revisit .. | .sessionResult .. | .exceeded ..
    | .pendingSessions _ | .stats _ => true
  | _ => false

/-- Each event changes one part of the store. -/
inductive Effect (s : Store) : Event → Store → Prop where
  | intern (j : Job) :
    Effect s (.internJob j ⟨(s.jobs.put j).1.1⟩) { s with jobs := (s.jobs.put j).2 }
  | enqueue (i : JobId) : Effect s (.enqueue i) (s.enqueue i)
  | pop {i : JobId} {pending : Deque JobId} (hp : s.popPending? = some (i, pending)) :
    Effect s (.nextPending (some i)) { s with pending }
  | popNone (hp : s.popPending? = none) : Effect s (.nextPending none) s
  | visit (k : VisitKey) :
    Effect s (.visit k (s.visited.visit k).1) { s with visited := (s.visited.visit k).2 }
  | suspend (r : Revisit) : Effect s (.addRevisit r ⟨s.revisits.size + 1⟩)
      { s with revisits := s.revisits.push ⟨r, false⟩ }
  | resume {i : RevisitId} {r : RevisitEntry} (hi : s.revisitRecord? i = some r) :
    Effect s (.markResumed i (!r.resumed)) { s with
      revisits := s.revisits.modify (i.index - 1) fun e => { e with resumed := true } }
  | openSession {k : SessionKey} {w : RevisitId} {i : SessionId} {b : Bool}
      {sessionKeys : Table SessionKey} {sessions : Array Session} {shared : Nat}
      (ho : s.openSession k w = ((i, b), { s with sessionKeys, sessions, shared })) :
    Effect s (.openSession k w i b) { s with sessionKeys, sessions, shared }
  | session {e : Event} {i : SessionId} {u : Session} {sessions : Array Session}
      (he : e.subject? = some i) (hi : s.session? i = some u)
      (hs : ∀ k, ({ s with sessions } : Store).session? k =
        if k = i then some (e.effect u) else s.session? k)
      (hn : sessions.toList.length = s.sessions.toList.length) : Effect s e { s with sessions }
  | idle {e : Event} (he : e.isIdle = true) (decomposed : Nat) : Effect s e { s with decomposed }

theorem Effect.of_modify {f : Session → Session} (he : e.subject? = some i)
    (hi : s.session? i = some u) (hf : f u = e.effect u) : s.Effect e (s.modifySession i f) := by
  refine .session he hi (fun k => ?_) ?_
  · rw [← hf]
    exact session?_modifySession hi f k
  · exact (congrArg List.length (toList_modifySession hi f)).trans (Numbered.length_modify ..)

theorem Gives.effect (hg : s.Gives e t) : s.Effect e t := by
  cases hg with
  | internJob j => exact .intern j
  | enqueue i => exact .enqueue i
  | nextPending =>
    rw [Store.nextPending]
    cases hp : s.popPending? with
    | none => exact .popNone hp
    | some x => exact .pop hp
  | visit k => exact .visit k
  | addRevisit r => exact .suspend r
  | @markResumed i first _ hm =>
    rw [markResumed?] at hm
    cases hi : s.revisitRecord? i with
    | none => rw [hi] at hm; cases hm
    | some r =>
      rw [hi] at hm
      cases hm
      exact .resume hi
  | openSession k w =>
    rw [RunM.openSession_eq]
    exact .openSession (RunM.openSession_eq s k w)
  | @complete i result first _ hc =>
    rw [complete?] at hc
    cases hi : s.session? i with
    | none => rw [hi] at hc; cases hc
    | some u =>
      rw [hi] at hc
      by_cases hp : u.result.isPending = true
      · simp only [hp, if_true] at hc
        cases hc
        exact .of_modify rfl hi (by simp [Event.effect, hp])
      · simp only [hp] at hc
        cases hc
        refine show s.Effect _ { s with sessions := s.sessions } from
          .session rfl hi (fun k => ?_) rfl
        split
        · next hk => simpa [Event.effect, hp, hk] using hi
        · rfl
  | @recordExceeded i x _ hx =>
    rw [recordExceeded?] at hx
    cases hi : s.session? i with
    | none => rw [hi] at hx; cases hx
    | some u =>
      rw [hi] at hx
      cases hx
      exact .of_modify rfl hi rfl
  | @takeWaiters i ws _ hw =>
    rw [takeWaiters?] at hw
    cases hi : s.session? i with
    | none => rw [hi] at hw; cases hw
    | some u =>
      rw [hi] at hw
      cases hw
      exact .of_modify rfl hi rfl
  | @retain i _ hr =>
    rw [retain?] at hr
    cases hi : s.session? i with
    | none => rw [hi] at hr; cases hr
    | some u =>
      rw [hi] at hr
      cases hr
      exact .of_modify rfl hi rfl
  | @release i last _ hr =>
    rw [release?] at hr
    cases hi : s.session? i with
    | none => rw [hi] at hr; cases hr
    | some u =>
      rw [hi] at hr
      by_cases hz : u.outstanding = 0
      · simp only [hz, if_true] at hr
        cases hr
      · simp only [hz, if_false] at hr
        cases hr
        exact .of_modify rfl hi rfl
  | recordDecomposed => exact .idle rfl _
  | job | revisit | sessionResult | exceeded | pendingSessions | stats => exact .idle rfl _

/-! ### Jobs, visits and revisits -/

theorem mem_concat_iff {x : Event} (hne : x ≠ e) : x ∈ h ++ [e] ↔ x ∈ h := by
  simp [hne]

/-- A number leads to the job that got it. -/
def TellsJobs (h : List Event) (s : Store) : Prop :=
  ∀ j i, .internJob j i ∈ h → s.job? i = some j

theorem TellsJobs.step (hs : TellsJobs h s) (hg : s.Gives e t) : TellsJobs (h ++ [e]) t := by
  intro j i hm
  cases hg.effect with
  | intern j' =>
    rcases List.mem_append.mp hm with hm | hm
    · exact Table.get?_put_of_eq_some (hs j i hm)
    · cases List.mem_singleton.mp hm
      exact Table.get?_put_self s.jobs j
  | session he => exact hs j i ((mem_concat_iff (by rintro rfl; cases he)).mp hm)
  | idle he => exact hs j i ((mem_concat_iff (by rintro rfl; cases he)).mp hm)
  | _ => exact hs j i ((mem_concat_iff (by rintro ⟨⟩)).mp hm)

def TellsVisits (h : List Event) (s : Store) : Prop :=
  ∀ k, k ∈ s.visited.members.toList ↔ ∃ seen, .visit k seen ∈ h

theorem TellsVisits.step (hs : TellsVisits h s) (hg : s.Gives e t) : TellsVisits (h ++ [e]) t := by
  intro k
  cases hg.effect with
  | visit k' =>
    have hput : k ∈ (s.visited.members.put k').2.toList ↔
        k ∈ s.visited.members.toList ∨ k = k' := by
      rw [Table.toList_put]
      split
      · next hk' => exact ⟨.inl, fun hk => hk.elim id (· ▸ hk')⟩
      · simp
    rw [SeenSet.members_visit, hput, hs k]
    simp [exists_or]
  | session he =>
    exact (hs k).trans (exists_congr fun b => (mem_concat_iff (by rintro rfl; cases he)).symm)
  | idle he =>
    exact (hs k).trans (exists_congr fun b => (mem_concat_iff (by rintro rfl; cases he)).symm)
  | _ => exact (hs k).trans (exists_congr fun b => (mem_concat_iff (by rintro ⟨⟩)).symm)

/-- A revisit stays on record, and was resumed if it was marked so. -/
structure TellsRevisits (h : List Event) (s : Store) : Prop where
  added : ∀ r i, .addRevisit r i ∈ h → ∃ x, s.revisitRecord? i = some x ∧ x.revisit = r
  marked : ∀ i b, .markResumed i b ∈ h → s.revisitRecord? i ≠ none
  resumed : ∀ i x, s.revisitRecord? i = some x → (x.resumed = true ↔ ∃ b, .markResumed i b ∈ h)

theorem TellsRevisits.of_steady (hs : TellsRevisits h s) (ht : t.revisits = s.revisits)
    (hadd : ∀ r i, .addRevisit r i ≠ e) (hmark : ∀ i b, .markResumed i b ≠ e) :
    TellsRevisits (h ++ [e]) t := by
  have hrec : ∀ i, t.revisitRecord? i = s.revisitRecord? i := fun i => by
    rw [revisitRecord?_eq, revisitRecord?_eq, ht]
  refine ⟨fun r i hm => ?_, fun i b hm => ?_, fun i x hx => ?_⟩
  · rw [hrec]
    exact hs.added r i ((mem_concat_iff (hadd r i)).mp hm)
  · rw [hrec]
    exact hs.marked i b ((mem_concat_iff (hmark i b)).mp hm)
  · rw [hrec] at hx
    exact (hs.resumed i x hx).trans
      (exists_congr fun b => (mem_concat_iff (hmark i b)).symm)

theorem revisitRecord?_push {r : RevisitEntry} {i : RevisitId} {x : RevisitEntry} :
    ({ s with revisits := s.revisits.push r } : Store).revisitRecord? i = some x ↔
      s.revisitRecord? i = some x ∨ i = ⟨s.revisits.size + 1⟩ ∧ x = r := by
  have hi : i.index = s.revisits.size + 1 ↔ i = ⟨s.revisits.size + 1⟩ := by cases i; simp
  rw [revisitRecord?_eq, revisitRecord?_eq, Array.toList_push, Numbered.get?_concat_eq_some,
    Array.length_toList, hi]

theorem revisitRecord?_next (s : Store) : s.revisitRecord? ⟨s.revisits.size + 1⟩ = none := by
  simp [revisitRecord?]

theorem revisitRecord?_resume (hi : s.revisitRecord? w = some r) (k : RevisitId) :
    ({ s with revisits := s.revisits.modify (w.index - 1) fun e => { e with resumed := true } } :
      Store).revisitRecord? k =
      if k = w then some { r with resumed := true } else s.revisitRecord? k := by
  obtain ⟨w⟩ := w
  obtain ⟨k⟩ := k
  cases w with
  | zero => cases hi
  | succ w =>
    cases k with
    | zero => simp [revisitRecord?]
    | succ k =>
      simp only [revisitRecord?] at hi
      simp only [revisitRecord?, Array.getElem?_modify, Nat.add_sub_cancel, RevisitId.mk.injEq,
        Nat.add_right_cancel_iff]
      by_cases hk : k = w
      · simp [hk, hi]
      · rw [if_neg (fun h => hk h.symm), if_neg hk]

theorem TellsRevisits.step (hs : TellsRevisits h s) (hg : s.Gives e t) :
    TellsRevisits (h ++ [e]) t := by
  cases hg.effect with
  | suspend r' =>
    refine ⟨fun r i hm => ?_, fun i b hm => ?_, fun i x hx => ?_⟩
    · rcases List.mem_append.mp hm with hm | hm
      · obtain ⟨x, hx, hr⟩ := hs.added r i hm
        exact ⟨x, revisitRecord?_push.mpr (.inl hx), hr⟩
      · cases List.mem_singleton.mp hm
        exact ⟨_, revisitRecord?_push.mpr (.inr ⟨rfl, rfl⟩), rfl⟩
    · rw [mem_concat_iff (by rintro ⟨⟩)] at hm
      obtain ⟨x, hx⟩ := Option.ne_none_iff_exists'.mp (hs.marked i b hm)
      exact Option.ne_none_iff_exists'.mpr ⟨x, revisitRecord?_push.mpr (.inl hx)⟩
    · have hmem : (∃ b, Event.markResumed i b ∈ h ++ [.addRevisit r' ⟨s.revisits.size + 1⟩]) ↔
          ∃ b, .markResumed i b ∈ h := by simp
      rw [hmem]
      rcases revisitRecord?_push.mp hx with hx | ⟨rfl, rfl⟩
      · exact hs.resumed i x hx
      · refine ⟨fun hn => (nomatch hn), ?_⟩
        rintro ⟨b, hb⟩
        exact absurd s.revisitRecord?_next (hs.marked _ b hb)
  | @resume w r' hw =>
    refine ⟨fun r i hm => ?_, fun i b hm => ?_, fun i x hx => ?_⟩
    · rw [mem_concat_iff (by rintro ⟨⟩)] at hm
      obtain ⟨x, hx, hr⟩ := hs.added r i hm
      rw [revisitRecord?_resume hw]
      split
      · next hi =>
        rw [hi, hw, Option.some.injEq] at hx
        exact ⟨_, rfl, hx ▸ hr⟩
      · exact ⟨x, hx, hr⟩
    · rw [revisitRecord?_resume hw]
      split
      · simp
      · next hi =>
        refine hs.marked i b ((mem_concat_iff ?_).mp hm)
        rintro ⟨⟩
        exact hi rfl
    · rw [revisitRecord?_resume hw] at hx
      split at hx
      · next hi =>
        cases hx
        simp [hi]
      · next hi =>
        rw [hs.resumed i x hx]
        simp [hi]
  | session he =>
    exact hs.of_steady rfl (by rintro r i rfl; cases he) (by rintro i b rfl; cases he)
  | idle he =>
    exact hs.of_steady rfl (by rintro r i rfl; cases he) (by rintro i b rfl; cases he)
  | _ => exact hs.of_steady rfl (by rintro r i ⟨⟩) (by rintro i b ⟨⟩)

/-! ### The worklist -/

/-- The jobs put on the worklist are those taken from it and those still there. -/
structure TellsWork (order : PendingOrder) (h : List Event) (s : Store) : Prop where
  order_eq : s.config.order = order
  pending : s.pending.toList = worklist order h
  popped : (h.filterMap Event.enqueued?).Perm (h.filterMap Event.popped? ++ worklist order h)

/-- The event leaves the worklist alone. -/
def Event.isAside : Event → Bool
  | .enqueue _ | .nextPending _ => false
  | _ => true

theorem worklist_concat (order : PendingOrder) (h : List Event) (e : Event) :
    worklist order (h ++ [e]) = e.shift order (worklist order h) := by
  rw [worklist, List.foldl_append]
  rfl

theorem TellsWork.of_aside (hs : TellsWork order h s) (he : e.isAside = true)
    (hc : t.config = s.config) (hp : t.pending = s.pending) : TellsWork order (h ++ [e]) t := by
  have hshift : worklist order (h ++ [e]) = worklist order h := by
    rw [worklist_concat]
    cases e <;> first | rfl | cases he
  have hnone : e.enqueued? = none ∧ e.popped? = none := by
    cases e <;> first | exact ⟨rfl, rfl⟩ | cases he
  refine ⟨hc ▸ hs.order_eq, ?_, ?_⟩
  · rw [hp, hshift, hs.pending]
  · simpa [hshift, hnone] using hs.popped

/-- What is popped was the end of the worklist that the order takes from. -/
theorem TellsWork.popPending?_eq_some {j : JobId} {d : Deque JobId} (hs : TellsWork order h s)
    (hp : s.popPending? = some (j, d)) :
    d.toList = (Event.nextPending (some j)).shift order (worklist order h) ∧
      (worklist order h).Perm (j :: d.toList) ∧ upNext order (worklist order h) = some j := by
  rw [popPending?, hs.order_eq] at hp
  cases order with
  | depthFirst =>
    have hl := hs.pending.symm.trans (Deque.toList_eq_of_popBack? hp)
    simp [hl, Event.shift, upNext]
  | breadthFirst =>
    have hl := hs.pending.symm.trans (Deque.toList_eq_of_popFront? hp)
    simp [hl, Event.shift, upNext]

theorem TellsWork.popPending?_eq_none (hs : TellsWork order h s) (hp : s.popPending? = none) :
    worklist order h = [] := by
  rw [← hs.pending]
  rw [popPending?, hs.order_eq] at hp
  cases order with
  | depthFirst => exact Deque.toList_eq_nil_of_popBack? hp
  | breadthFirst => exact Deque.toList_eq_nil_of_popFront? hp

theorem TellsWork.step (hs : TellsWork order h s) (hg : s.Gives e t) :
    TellsWork order (h ++ [e]) t := by
  cases hg.effect with
  | enqueue i =>
    have hw : worklist order (h ++ [.enqueue i]) = worklist order h ++ [i] := worklist_concat ..
    refine ⟨hs.order_eq, ?_, ?_⟩
    · rw [hw, ← hs.pending]
      exact Deque.toList_pushBack ..
    · simpa [hw, List.filterMap_cons, Event.enqueued?, Event.popped?] using
        hs.popped.append_right [i]
  | @pop i pending hp =>
    obtain ⟨hrest, hperm, -⟩ := hs.popPending?_eq_some hp
    rw [← worklist_concat] at hrest
    refine ⟨hs.order_eq, hrest, ?_⟩
    rw [← hrest]
    simpa [List.filterMap_cons, Event.enqueued?, Event.popped?] using
      hs.popped.trans (hperm.append_left _)
  | popNone hp =>
    have hnil := hs.popPending?_eq_none hp
    have hw : worklist order (h ++ [.nextPending none]) = worklist order h := by
      rw [worklist_concat, hnil]
      cases order <;> rfl
    refine ⟨hs.order_eq, hs.pending.trans hw.symm, ?_⟩
    simpa [hw, List.filterMap_cons, Event.enqueued?, Event.popped?] using hs.popped
  | session he => exact hs.of_aside (by cases e <;> first | rfl | cases he) rfl rfl
  | idle he => exact hs.of_aside (by cases e <;> first | rfl | cases he) rfl rfl
  | _ => exact hs.of_aside rfl rfl rfl

/-! ### Sessions -/

/-- The session is as the history tells. -/
structure Told (i : SessionId) (h : List Event) (u : Session) : Prop where
  result : u.result = outcome i h
  exceeded : u.exceeded = excess i h
  waiters : u.waiters.toList = parked i h

/-- The event writes to the session or opens it. -/
def Event.Concerns (i : SessionId) (e : Event) : Prop := e.subject? = some i ∨ e.waiter? i ≠ none

theorem isPending_iff {result : SessionResult} : result.isPending = true ↔ result = .pending := by
  cases result <;> simp [SessionResult.isPending]

theorem Told.of_not_concerns (hu : Told i h u) (he : ¬ e.Concerns i) : Told i (h ++ [e]) u := by
  obtain ⟨hsub, hwait⟩ := not_or.mp he
  rw [ne_eq, Decidable.not_not] at hwait
  have hnone : e.outcome? i = none ∧ e.excess? i = none ∧ e.dismisses i = false := by
    cases e <;> simp_all [Event.outcome?, Event.excess?, Event.dismisses, Event.subject?]
  obtain ⟨hout, hex, hdis⟩ := hnone
  refine ⟨?_, ?_, ?_⟩
  · rw [outcome_concat, hout, hu.result]
    split
    · next hp => rw [hp]; rfl
    · rfl
  · rw [excess_concat, hex, hu.exceeded, Option.or_none]
  · rw [parked_concat, hdis, hwait, hu.waiters]
    simp

theorem told_fresh (hh : ∀ e ∈ h, ¬ e.Concerns i) : Told i h .fresh := by
  induction h using List.reverseRecOn with
  | nil => exact ⟨rfl, rfl, rfl⟩
  | append_singleton h e ih =>
    exact (ih fun e' he' => hh e' (by simp [he'])).of_not_concerns (hh e (by simp))

theorem waiter?_of_subject? (he : e.subject? = some i) (k : SessionId) : e.waiter? k = none := by
  cases e <;> first | rfl | cases he

theorem Told.effect (hu : Told i h u) (he : e.subject? = some i) :
    Told i (h ++ [e]) (e.effect u) := by
  refine ⟨?_, ?_, ?_⟩
  · rw [outcome_concat, ← hu.result]
    cases e with
    | complete k result first =>
      cases he
      by_cases hp : u.result = .pending <;> by_cases hr : result = .pending <;>
        simp [Event.effect, Event.outcome?, isPending_iff, hp, hr]
    | recordExceeded | takeWaiters | retain | release => simp [Event.effect, Event.outcome?]
    | _ => cases he
  · rw [excess_concat, ← hu.exceeded]
    cases e with
    | recordExceeded k x =>
      cases he
      simp [Event.effect, Event.excess?]
    | complete =>
      simp only [Event.effect, Event.excess?, Option.or_none]
      split <;> rfl
    | takeWaiters | retain | release => simp [Event.effect, Event.excess?]
    | _ => cases he
  · rw [parked_concat, waiter?_of_subject? he, ← hu.waiters]
    cases e with
    | takeWaiters k ws =>
      cases he
      simp [Event.effect, Event.dismisses]
    | complete =>
      simp only [Event.effect, Event.dismisses]
      split <;> simp
    | recordExceeded | retain | release => simp [Event.effect, Event.dismisses]
    | _ => cases he

theorem Told.enroll (hu : Told i h u) (k : SessionKey) (w : RevisitId) (b : Bool) :
    Told i (h ++ [.openSession k w i b]) (u.enroll w) := by
  have hres : (u.enroll w).result = u.result ∧ (u.enroll w).exceeded = u.exceeded := by
    rw [Session.enroll]
    split <;> exact ⟨rfl, rfl⟩
  refine ⟨?_, ?_, ?_⟩
  · rw [hres.1, outcome_concat, hu.result]
    simp +contextual [Event.outcome?]
  · rw [hres.2, excess_concat, hu.exceeded]
    exact Option.or_none.symm
  · rw [parked_concat, ← hu.result, ← hu.waiters, Session.enroll]
    by_cases hp : u.result = .pending <;> simp [isPending_iff, hp, Event.dismisses, Event.waiter?]

/-- The sessions and their keys have the same numbers. -/
structure TellsSessions (h : List Event) (s : Store) : Prop where
  opened : ∀ k w i b, .openSession k w i b ∈ h → s.sessionKeys.get? i.index = some k
  keyed : ∀ k ∈ s.sessionKeys.toList, ∃ w i b, .openSession k w i b ∈ h
  aligned : s.sessionKeys.toList.length = s.sessions.toList.length
  known : ∀ e ∈ h, ∀ i, e.Concerns i → s.session? i ≠ none
  told : ∀ i u, s.session? i = some u → Told i h u

theorem TellsSessions.of_steady (hs : TellsSessions h s) (hk : t.sessionKeys = s.sessionKeys)
    (ht : t.sessions = s.sessions) (he : ∀ i, ¬ e.Concerns i) : TellsSessions (h ++ [e]) t := by
  have hsess : ∀ i, t.session? i = s.session? i := fun i => by rw [session?_eq, session?_eq, ht]
  have hopen : ∀ k w i b, .openSession k w i b ≠ e := by
    rintro k w i b rfl
    exact he i (.inr (by simp [Event.waiter?]))
  refine ⟨fun k w i b hm => ?_, fun k hm => ?_, ?_, fun e' hm i hi => ?_, fun i u hu => ?_⟩
  · rw [hk]
    exact hs.opened k w i b ((mem_concat_iff (hopen k w i b)).mp hm)
  · rw [hk] at hm
    obtain ⟨w, i, b, hb⟩ := hs.keyed k hm
    exact ⟨w, i, b, by simp [hb]⟩
  · rw [hk, ht, hs.aligned]
  · rw [hsess]
    refine hs.known e' ((mem_concat_iff ?_).mp hm) i hi
    rintro rfl
    exact he i hi
  · rw [hsess] at hu
    exact (hs.told i u hu).of_not_concerns (he i)

theorem not_concerns_of_isIdle (he : e.isIdle = true) (i : SessionId) : ¬ e.Concerns i := by
  cases e <;> simp_all [Event.isIdle, Event.Concerns, Event.subject?, Event.waiter?]

theorem TellsSessions.of_session {sessions : Array Session} (hs : TellsSessions h s)
    (he : e.subject? = some i) (hi : s.session? i = some u)
    (ht : ∀ k, ({ s with sessions } : Store).session? k =
      if k = i then some (e.effect u) else s.session? k)
    (hn : sessions.toList.length = s.sessions.toList.length) :
    TellsSessions (h ++ [e]) { s with sessions } := by
  have hopen : ∀ k w i b, .openSession k w i b ≠ e := by
    rintro k w i b rfl
    cases he
  have hconc : ∀ k, e.Concerns k → k = i := by
    rintro k (hk | hk)
    · exact Option.some.inj (hk.symm.trans he)
    · exact absurd (waiter?_of_subject? he k) hk
  refine ⟨fun k w j b hm => ?_, fun k hm => ?_, ?_, fun e' hm j hj => ?_, fun j v hv => ?_⟩
  · exact hs.opened k w j b ((mem_concat_iff (hopen k w j b)).mp hm)
  · obtain ⟨w, j, b, hb⟩ := hs.keyed k hm
    exact ⟨w, j, b, by simp [hb]⟩
  · exact hs.aligned.trans hn.symm
  · rw [ht]
    split
    · simp
    · next hne =>
      refine hs.known e' ((mem_concat_iff ?_).mp hm) j hj
      rintro rfl
      exact hne (hconc j hj)
  · rw [ht] at hv
    split at hv
    · next heq =>
      cases hv
      exact heq ▸ (hs.told i u hi).effect he
    · next hne => exact (hs.told j v hv).of_not_concerns fun hj => hne (hconc j hj)

/-- Opening a session, new or not, enrolls the waiter there and leaves the others alone. -/
theorem TellsSessions.openSession (hs : TellsSessions h s) (k : SessionKey) (w : RevisitId) :
    ∃ u, Told (s.openSession k w).1.1 h u ∧
      (∀ j, (s.openSession k w).2.session? j =
        if j = (s.openSession k w).1.1 then some (u.enroll w) else s.session? j) ∧
      (s.openSession k w).2.sessionKeys.toList.length =
        (s.openSession k w).2.sessions.toList.length := by
  have hopen := RunM.openSession_eq s k w
  by_cases hk : k ∈ s.sessionKeys.toList
  · obtain ⟨w', i, b, hb⟩ := hs.keyed k hk
    obtain ⟨hput, hkeys⟩ := Table.put_of_get? (hs.opened k w' i b hb)
    obtain ⟨u, hu⟩ := Option.ne_none_iff_exists'.mp
      (hs.known _ hb i (.inr (by simp [Event.waiter?])))
    simp only [hput, Bool.false_eq_true, if_false] at hopen
    rw [hopen]
    refine ⟨u, hs.told i u hu, fun j => ?_, ?_⟩
    · exact session?_modifySession hu (Session.enroll w) j
    · rw [hkeys, hs.aligned, Array.toList_modify, List.length_modify]
  · have hput := Table.put_of_not_mem hk
    have hkeys : (s.sessionKeys.put k).2.toList = s.sessionKeys.toList ++ [k] :=
      (Table.toList_put _ k).trans (if_neg hk)
    simp only [hput, if_true] at hopen
    rw [hopen]
    have hlist : ((s.sessions.push .fresh).modify s.sessionKeys.toList.length
        (Session.enroll w)).toList = s.sessions.toList ++ [Session.enroll w .fresh] := by
      rw [Array.toList_modify, Array.toList_push, hs.aligned]
      exact Numbered.modify_concat _ _ _
    refine ⟨.fresh, told_fresh fun e he hi => hs.known e he _ hi ?_, fun j => ?_, ?_⟩
    · simp [session?, hs.aligned]
    · have hj : j.index = s.sessions.toList.length + 1 ↔ j = ⟨s.sessionKeys.toList.length + 1⟩ := by
        cases j
        simp [hs.aligned]
      rw [session?_eq, session?_eq]
      refine (congrArg (Numbered.get? · j.index) hlist).trans (Option.ext fun v => ?_)
      rw [Numbered.get?_concat_eq_some, hj]
      split
      · next heq =>
        rw [hj.mpr heq, Option.some.injEq]
        simp [Numbered.get?, heq, eq_comm]
      · next hne => simp [hne]
    · have hlen := congrArg List.length hlist
      rw [List.length_append, ← hs.aligned] at hlen
      rw [hkeys, List.length_append]
      exact hlen.symm

theorem TellsSessions.of_openSession (hs : TellsSessions h s) (k : SessionKey) (w : RevisitId) :
    TellsSessions (h ++ [.openSession k w (s.openSession k w).1.1 (s.openSession k w).1.2])
      (s.openSession k w).2 := by
  obtain ⟨u, hu, hsess, hlen⟩ := hs.openSession k w
  have hconc : ∀ j,
      (Event.openSession k w (s.openSession k w).1.1 (s.openSession k w).1.2).Concerns j →
      j = (s.openSession k w).1.1 := by
    rintro j (hj | hj)
    · cases hj
    · by_contra hne
      exact hj (if_neg fun heq => hne heq.symm)
  refine ⟨fun k' w' i b hm => ?_, fun k' hm => ?_, hlen, fun e he j hj => ?_, fun j v hv => ?_⟩
  · rcases List.mem_append.mp hm with hm | hm
    · exact Table.get?_put_of_eq_some (hs.opened k' w' i b hm)
    · cases List.mem_singleton.mp hm
      exact Table.get?_put_self s.sessionKeys k
  · by_cases hk : k' = k
    · rw [hk]
      exact ⟨w, _, _, List.mem_append_right h (List.mem_singleton.mpr rfl)⟩
    · have hold : k' ∈ s.sessionKeys.toList := by
        rw [RunM.openSession_eq, Table.toList_put] at hm
        split at hm
        · exact hm
        · simpa [hk] using hm
      obtain ⟨w', i, b, hb⟩ := hs.keyed k' hold
      exact ⟨w', i, b, by simp [hb]⟩
  · rw [hsess]
    split
    · simp
    · next hne =>
      refine hs.known e ((mem_concat_iff ?_).mp he) j hj
      rintro rfl
      exact hne (hconc j hj)
  · rw [hsess] at hv
    split at hv
    · next heq =>
      cases hv
      exact heq ▸ hu.enroll k w _
    · next hne => exact (hs.told j v hv).of_not_concerns fun hj => hne (hconc j hj)

theorem TellsSessions.step (hs : TellsSessions h s) (hg : s.Gives e t) :
    TellsSessions (h ++ [e]) t := by
  cases hg.effect with
  | @openSession k w i b _ _ _ ho =>
    have hopen := hs.of_openSession k w
    rwa [ho] at hopen
  | session he hi ht hn => exact hs.of_session he hi ht hn
  | idle he => exact hs.of_steady rfl rfl (not_concerns_of_isIdle he)
  | _ => exact hs.of_steady rfl rfl fun i hi => hi.elim (fun h => nomatch h) (· rfl)

/-! ### Whole histories -/

/-- The store holds what its history tells. -/
structure Tells (order : PendingOrder) (h : List Event) (s : Store) : Prop where
  jobs : TellsJobs h s
  work : TellsWork order h s
  visits : TellsVisits h s
  revisits : TellsRevisits h s
  sessions : TellsSessions h s

theorem Tells.step (hs : Tells order h s) (hg : s.Gives e t) : Tells order (h ++ [e]) t :=
  ⟨hs.jobs.step hg, hs.work.step hg, hs.visits.step hg, hs.revisits.step hg, hs.sessions.step hg⟩

/-- A store without records has no history. -/
theorem tells_nil (ho : s.config.order = order) (hp : s.pending.toList = [])
    (hv : s.visited.members.toList = []) (hr : s.revisits = #[])
    (hk : s.sessionKeys.toList = []) (hs : s.sessions = #[]) : Tells order [] s where
  jobs := fun j i hm => nomatch hm
  work := ⟨ho, hp, .nil⟩
  visits := fun k => by simp [hv]
  revisits := by
    refine ⟨fun r i hm => (nomatch hm), fun i b hm => (nomatch hm), fun i x hx => ?_⟩
    rw [revisitRecord?_eq, hr] at hx
    exact absurd (Numbered.mem_of_get? hx) List.not_mem_nil
  sessions := by
    refine ⟨fun k w i b hm => (nomatch hm), fun k hm => ?_, by simp [hk, hs],
      fun e he => (nomatch he), fun i u hu => ?_⟩
    · rw [hk] at hm
      cases hm
    · rw [session?_eq, hs] at hu
      exact absurd (Numbered.mem_of_get? hu) List.not_mem_nil

theorem History.config_eq (hh : History config h s) : s.config = config := by
  induction hh with
  | start hs =>
    rw [ofConfig?] at hs
    split at hs
    · cases hs
      rfl
    · cases hs
  | step _ hg ih =>
    refine .trans ?_ ih
    cases hg.effect <;> rfl
  | reset _ ih => exact ih

theorem History.tells (hh : History config h s) : Tells config.order h s := by
  induction hh with
  | start hs =>
    rw [ofConfig?] at hs
    split at hs
    · cases hs
      exact tells_nil rfl rfl rfl rfl rfl rfl
    · cases hs
  | step _ hg ih => exact ih.step hg
  | reset before => exact tells_nil (congrArg (·.order) before.config_eq) rfl rfl rfl rfl rfl

/-! ### What the store answers next -/

theorem Tells.nextPending (hs : Tells order h s) :
    s.nextPending.1 = upNext order (worklist order h) := by
  rw [Store.nextPending]
  cases hp : s.popPending? with
  | none =>
    rw [hs.work.popPending?_eq_none hp]
    cases order <;> rfl
  | some x => exact (hs.work.popPending?_eq_some hp).2.2.symm

theorem Tells.exists_session (hs : Tells order h s) {k : SessionKey} {b : Bool}
    (hm : .openSession k w i b ∈ h) : ∃ u, s.session? i = some u ∧ Told i h u := by
  obtain ⟨u, hu⟩ := Option.ne_none_iff_exists'.mp
    (hs.sessions.known _ hm i (.inr (by simp [Event.waiter?])))
  exact ⟨u, hu, hs.sessions.told i u hu⟩

theorem Tells.complete (hs : Tells order h s) {k : SessionKey} {b : Bool}
    (hm : .openSession k w i b ∈ h) (result : SessionResult) :
    (s.complete? i result).1 = some (decide (outcome i h = .pending)) := by
  obtain ⟨u, hu, htold⟩ := hs.exists_session hm
  rw [complete?, hu, ← htold.result]
  by_cases hp : u.result = .pending <;> simp [isPending_iff, hp]

theorem Tells.markResumed (hs : Tells order h s) {v : Revisit} (hm : .addRevisit v w ∈ h) :
    ∃ first, (s.markResumed? w).1 = some first ∧ (first = true ↔ ∀ b, .markResumed w b ∉ h) := by
  obtain ⟨x, hx, -⟩ := hs.revisits.added v w hm
  refine ⟨!x.resumed, by rw [markResumed?, hx], ?_⟩
  rw [Bool.not_eq_true', ← Bool.not_eq_true, hs.revisits.resumed w x hx, not_exists]

/-- A store that came to be by a history answers as the history tells. -/
theorem answers_of_history (hh : History config h s) : s.Answers config.order h where
  internJob := fun j i hm j' => by
    rw [← Table.put_number_iff (hh.tells.jobs j i hm)]
    exact ⟨congrArg JobId.index, fun hn => congrArg JobId.mk hn⟩
  job := hh.tells.jobs
  nextPending := hh.tells.nextPending
  popped := hh.tells.work.popped
  visit := fun k => by
    rw [← hh.tells.visits k]
    exact (Bool.eq_iff_iff.mp (SeenSet.visit_fst s.visited k)).trans decide_eq_true_iff
  addRevisit := fun r i hm r' hi => by
    obtain ⟨x, hx, -⟩ := hh.tells.revisits.added r i hm
    rw [← hi] at hx
    cases hx.symm.trans s.revisitRecord?_next
  revisit := fun r i hm => by
    obtain ⟨x, hx, hr⟩ := hh.tells.revisits.added r i hm
    rw [revisit?, hx, Option.map_some, hr]
  markResumed := fun r i hm => hh.tells.markResumed hm
  openSession := fun k w i b hm k' w' => by
    rw [← Table.put_number_iff (hh.tells.sessions.opened k w i b hm)]
    exact ⟨congrArg SessionId.index, fun hn => congrArg SessionId.mk hn⟩
  created := fun k w => by
    refine ⟨fun hnew w' i b hm => ?_, fun hnot => Table.put_new_iff.mpr fun hk => ?_⟩
    · have hput := (Table.put_of_get? (hh.tells.sessions.opened k w' i b hm)).1
      cases (congrArg (·.2) hput).symm.trans hnew
    · obtain ⟨w', i, b, hb⟩ := hh.tells.sessions.keyed k hk
      exact hnot w' i b hb
  sessionResult := fun k w i b hm => by
    obtain ⟨u, hu, htold⟩ := hh.tells.exists_session hm
    rw [sessionResult?, hu, Option.map_some, htold.result]
  complete := fun k w i b hm => hh.tells.complete hm
  exceeded := fun k w i b hm => by
    obtain ⟨u, hu, htold⟩ := hh.tells.exists_session hm
    rw [exceeded?, hu, Option.map_some, htold.exceeded]
  takeWaiters := fun k w i b hm => by
    obtain ⟨u, hu, htold⟩ := hh.tells.exists_session hm
    rw [takeWaiters?, hu, ← htold.waiters]

/-- A session on a plain truth. -/
def plainKey : SessionKey := ⟨⟨0⟩, .atom (.const true), ∅, .zero⟩

theorem answers_of_history_reset : ∃ s,
    History ⟨.breadthFirst, 0⟩ [.openSession plainKey ⟨7⟩ ⟨1⟩ true, .complete ⟨1⟩ .pass true,
      .openSession plainKey ⟨8⟩ ⟨1⟩ false] s ∧
    s.Answers .breadthFirst [.openSession plainKey ⟨7⟩ ⟨1⟩ true, .complete ⟨1⟩ .pass true,
      .openSession plainKey ⟨8⟩ ⟨1⟩ false] := by
  let before : Store := ((empty ⟨.breadthFirst, 0⟩).openSession plainKey ⟨3⟩).2.reset
  let opened : Store := (before.openSession plainKey ⟨7⟩).2
  let done : Store := (opened.complete? ⟨1⟩ .pass).2
  have hnew : (before.openSession plainKey ⟨7⟩).1 = (⟨1⟩, true) := by decide +kernel
  have hfirst : (opened.complete? ⟨1⟩ .pass).1 = some true := by decide +kernel
  have hdone : opened.complete? ⟨1⟩ .pass = (some true, done) := Prod.ext hfirst rfl
  have hold : (done.openSession plainKey ⟨8⟩).1 = (⟨1⟩, false) := by decide +kernel
  have hstart : History ⟨.breadthFirst, 0⟩ [] before :=
    .reset (.step (.start rfl) (.openSession plainKey ⟨3⟩))
  have hh := hstart.step (.openSession plainKey ⟨7⟩) |>.step (.complete hdone)
    |>.step (.openSession plainKey ⟨8⟩)
  rw [hnew, hold] at hh
  exact ⟨_, hh, answers_of_history hh⟩

/-- A session that is completed with a pending result can be completed again. -/
theorem complete_pending_again : ∃ s,
    History ⟨.depthFirst, 0⟩ [.openSession plainKey ⟨1⟩ ⟨1⟩ true, .complete ⟨1⟩ .pending true] s ∧
    (s.complete? ⟨1⟩ .pass).1 = some true ∧
    (s.complete? ⟨1⟩ .pass).2.sessionResult? ⟨1⟩ = some .pass := by
  let before : Store := empty ⟨.depthFirst, 0⟩
  let opened : Store := (before.openSession plainKey ⟨1⟩).2
  have hnew : (before.openSession plainKey ⟨1⟩).1 = (⟨1⟩, true) := by decide +kernel
  have hfirst : (opened.complete? ⟨1⟩ .pending).1 = some true := by decide +kernel
  have hstart : History ⟨.depthFirst, 0⟩ [] before := .start rfl
  have hh := hstart.step (.openSession plainKey ⟨1⟩) |>.step
    (.complete (Prod.ext hfirst rfl : opened.complete? ⟨1⟩ .pending = (some true, _)))
  rw [hnew] at hh
  exact ⟨_, hh, by decide +kernel, by decide +kernel⟩

end CostCTL.Store
