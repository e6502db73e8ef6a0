import CostCTL.Proofs.Determinism
import CostCTL.Proofs.Reach

/-!
# A search inside a session

The search for a formula goes the same way when it is made for the first session of another search:
the requirement's own work becomes the work of that session, and every other session and every
revisit gets the next number (`Search.Nests`). Each move is matched by a move of the search inside
(`Move.nest`), until the session is decided.
-/

namespace CostCTL

def SessionId.nest (i : SessionId) : SessionId := ⟨i.index + 1⟩

def RevisitId.nest (i : RevisitId) : RevisitId := ⟨i.index + 1⟩

/-- The requirement's own work becomes the work of the first session. -/
def nestSession (session : Option SessionId) : SessionId := session.elim ⟨1⟩ SessionId.nest

def Context.nest (c : Context) : Context := { c with session := some (nestSession c.session) }

def Job.nest (j : Job) : Job := ⟨j.toContext.nest, j.formula, j.link.map RevisitId.nest⟩

def Revisit.nest (r : Revisit) : Revisit :=
  ⟨r.toContext.nest, r.resume, r.precondition, r.parent.map RevisitId.nest⟩

def RevisitEntry.nest (e : RevisitEntry) : RevisitEntry := ⟨e.revisit.nest, e.resumed⟩

def VisitKey.nest (k : VisitKey) : VisitKey :=
  { k with link := k.link.map RevisitId.nest, session := some (nestSession k.session) }

/-- The same task inside. How far chains may be followed is no part of it. -/
inductive Task.Nests : Task → Task → Prop where
  | process (j : Job) : Nests (.process j) (.process j.nest)
  | execute (n m : Nat) (c : Context) (link : Option RevisitId) (o : Obligation) :
    Nests (.execute n c link o) (.execute m c.nest (link.map RevisitId.nest) o)
  | resume (n m : Nat) (c : Context) (link : Option RevisitId) :
    Nests (.resume n c link) (.resume m c.nest (link.map RevisitId.nest))
  | fail (session : Option SessionId) (x : Counterexample) :
    Nests (.fail session x) (.fail (some (nestSession session)) x)
  | release (session : Option SessionId) :
    Nests (.release session) (.release (some (nestSession session)))
  | tell (result : SessionResult) (i : RevisitId) : Nests (.tell result i) (.tell result i.nest)

structure Session.Nests (u v : Session) : Prop where
  result : v.result = u.result
  waiters : v.waiters.toList = u.waiters.toList.map RevisitId.nest
  outstanding : v.outstanding = u.outstanding
  exceeded : v.exceeded = u.exceeded

/-- The search for `f` is made inside the first session of the other search. -/
structure Search.Nests (f : Formula) (a b : Search) : Prop where
  order : b.order = a.order
  queue : b.queue = a.queue.map Job.nest
  visited : ∀ k : VisitKey, k.session ≠ some ⟨0⟩ → (k.nest ∈ b.visited ↔ k ∈ a.visited)
  revisits : ∃ e, b.revisits = e :: a.revisits.map RevisitEntry.nest
  keys : ∃ k, k.formula = f ∧ b.keys = k :: a.keys
  sessions : ∃ u vs, b.sessions = u :: vs ∧ u.result = .pending ∧ u.exceeded = none ∧
    List.Forall₂ Session.Nests a.sessions vs
  resolved : b.resolved = a.resolved.map SessionId.nest
  tasks : List.Forall₂ Task.Nests a.tasks b.tasks

variable {g : Kripke} {f : Formula} {a a' b : Search} {base : Nat}

theorem RevisitId.nest_inj {i i' : RevisitId} (h : i.nest = i'.nest) : i = i' := by
  cases i
  cases i'
  simpa [nest] using h

theorem nestSession_inj {i i' : Option SessionId} (hi : i ≠ some ⟨0⟩) (hi' : i' ≠ some ⟨0⟩)
    (h : nestSession i = nestSession i') : i = i' := by
  cases i with
  | none =>
    cases i' with
    | none => rfl
    | some i' =>
      obtain ⟨n⟩ := i'
      have : n = 0 := by simpa [nestSession, SessionId.nest] using h
      exact absurd (by rw [this]) hi'
  | some i =>
    obtain ⟨n⟩ := i
    cases i' with
    | none =>
      have : n = 0 := by simpa [nestSession, SessionId.nest] using h
      exact absurd (by rw [this]) hi
    | some i' =>
      obtain ⟨n'⟩ := i'
      have : n = n' := by simpa [nestSession, SessionId.nest] using h
      rw [this]

theorem VisitKey.nest_inj {k k' : VisitKey} (hk : k.session ≠ some ⟨0⟩)
    (hk' : k'.session ≠ some ⟨0⟩) (h : k.nest = k'.nest) : k = k' := by
  obtain ⟨node, formula, inCycle, window, cost, link, session⟩ := k
  obtain ⟨node', formula', inCycle', window', cost', link', session'⟩ := k'
  simp only [nest, VisitKey.mk.injEq, Option.some.injEq] at h
  obtain ⟨rfl, rfl, rfl, rfl, rfl, hl, hs⟩ := h
  cases Option.map_injective (fun _ _ => RevisitId.nest_inj) hl
  cases nestSession_inj hk hk' hs
  rfl

/-! ### Records inside -/

theorem Numbered.get?_cons {α : Type} {l : List α} {n : Nat} {x : α} (h : get? l n = some x) (y : α) :
    get? (y :: l) (n + 1) = some x := by
  obtain ⟨i, rfl, hi⟩ := get?_eq_some_iff.mp h
  exact hi

theorem Numbered.modify_cons {α : Type} (l : List α) {n : Nat} (hn : n ≠ 0) (φ : α → α) (y : α) :
    modify (y :: l) φ (n + 1) = y :: modify l φ n := by
  cases n with
  | zero => exact absurd rfl hn
  | succ n => rfl

namespace Search

/-- A session on record is no session zero. -/
theorem session_ne_zero {session : Option SessionId} (h : a.result? session ≠ none) :
    session ≠ some ⟨0⟩ := by
  rintro rfl
  exact h rfl

namespace Nests

theorem record (h : a.Nests f b) {i : RevisitId} {e : RevisitEntry} (he : a.record? i = some e) :
    b.record? i.nest = some e.nest := by
  obtain ⟨e₁, hb⟩ := h.revisits
  rw [record?, hb]
  refine Numbered.get?_cons ?_ e₁
  obtain ⟨n, hn, hi⟩ := Numbered.get?_eq_some_iff.mp he
  exact Numbered.get?_eq_some_iff.mpr ⟨n, hn, by rw [List.getElem?_map, hi]; rfl⟩

theorem key (h : a.Nests f b) {i : SessionId} {k : SessionKey} (hk : a.key? i = some k) :
    b.key? i.nest = some k := by
  obtain ⟨k₁, -, hb⟩ := h.keys
  rw [key?, hb]
  exact Numbered.get?_cons hk k₁

theorem session (h : a.Nests f b) {i : SessionId} {u : Session} (hi : a.session? i = some u) :
    ∃ v, b.session? i.nest = some v ∧ u.Nests v := by
  obtain ⟨u₁, vs, hb, -, -, hall⟩ := h.sessions
  obtain ⟨v, hv, huv⟩ := Numbered.exists_get?_of_forall₂ hall hi
  refine ⟨v, ?_, huv⟩
  rw [session?, hb]
  exact Numbered.get?_cons hv u₁

theorem result (h : a.Nests f b) {session : Option SessionId} {r : SessionResult}
    (hr : a.result? session = some r) : b.result? (some (nestSession session)) = some r := by
  cases session with
  | none =>
    obtain ⟨u, vs, hb, hu, -⟩ := h.sessions
    cases hr
    rw [result?, session?, hb]
    exact congrArg some hu
  | some i =>
    obtain ⟨u, hu, rfl⟩ := Option.map_eq_some_iff.mp hr
    obtain ⟨v, hv, huv⟩ := h.session hu
    rw [nestSession, Option.elim, result?, hv, Option.map_some, huv.result]

theorem opened (h : a.Nests f b) {session : Option SessionId} (ho : a.Open session) :
    b.Open (some (nestSession session)) := h.result ho

theorem settled (h : a.Nests f b) {session : Option SessionId} (hs : a.Settled session) :
    b.Settled (some (nestSession session)) := by
  obtain ⟨r, hr, hp⟩ := hs
  exact ⟨r, h.result hr, hp⟩

theorem nextRevisit (h : a.Nests f b) : b.nextRevisit = a.nextRevisit.nest := by
  obtain ⟨e, hb⟩ := h.revisits
  simp [Search.nextRevisit, hb, RevisitId.nest]

theorem nextSession (h : a.Nests f b) : b.nextSession = a.nextSession.nest := by
  obtain ⟨k, -, hb⟩ := h.keys
  simp [Search.nextSession, hb, SessionId.nest]

theorem takes (h : a.Nests f b) {j : Job} {rest : List Job} (ht : a.Takes j rest) :
    b.Takes j.nest (rest.map Job.nest) := by
  unfold Takes at ht ⊢
  rw [h.order, h.queue]
  split at ht <;> simp [ht]

/-! ### The same change inside -/

theorem withTasks (h : a.Nests f b) {ts ts' : List Task} (ht : List.Forall₂ Task.Nests ts ts') :
    (a.withTasks ts).Nests f (b.withTasks ts') :=
  { h with tasks := ht }

theorem modifySession (h : a.Nests f b) {i : SessionId} (hi : a.session? i ≠ none)
    {φ ψ : Session → Session} (hφ : ∀ u v, u.Nests v → (φ u).Nests (ψ v)) :
    (a.modifySession i φ).Nests f (b.modifySession i.nest ψ) := by
  obtain ⟨u, vs, hb, hu, hx, hall⟩ := h.sessions
  have hpos := (Numbered.get?_ne_none_iff.mp hi).1
  refine { h with
    sessions := ⟨u, Numbered.modify vs ψ i.index, ?_, hu, hx, Numbered.forall₂_modify hφ hall _⟩ }
  rw [Search.modifySession, hb]
  exact Numbered.modify_cons vs (Nat.ne_of_gt hpos) ψ u

theorem modifyFirst (h : a.Nests f b) {ψ : Session → Session}
    (hr : ∀ u, (ψ u).result = u.result) (hx : ∀ u, (ψ u).exceeded = u.exceeded) :
    a.Nests f (b.modifySession ⟨1⟩ ψ) := by
  obtain ⟨u, vs, hb, hu, hux, hall⟩ := h.sessions
  refine { h with
    sessions := ⟨ψ u, vs, ?_, (hr u).trans hu, (hx u).trans hux, hall⟩ }
  rw [Search.modifySession, hb]
  rfl

theorem retain (h : a.Nests f b) {session : Option SessionId} (hs : a.result? session ≠ none)
    (n : Nat) : (a.retain n session).Nests f (b.retain n (some (nestSession session))) := by
  cases session with
  | none => exact h.modifyFirst (by intro u; rfl) (by intro u; rfl)
  | some i =>
    refine h.modifySession (fun hi => hs (by rw [result?, hi]; rfl)) fun u v huv => ?_
    exact ⟨huv.result, huv.waiters, by rw [huv.outstanding], huv.exceeded⟩

theorem push (h : a.Nests f b) {session : Option SessionId} (hs : a.result? session ≠ none)
    (jobs : List Job) :
    (a.push session jobs).Nests f (b.push (some (nestSession session)) (jobs.map Job.nest)) := by
  have hr := h.retain hs jobs.length
  have hpush : b.push (some (nestSession session)) (jobs.map Job.nest) =
      { b.retain jobs.length (some (nestSession session)) with
        queue := b.queue ++ jobs.map Job.nest } := by rw [Search.push, List.length_map]
  rw [hpush]
  refine { hr with queue := ?_ }
  rw [h.queue]
  exact (List.map_append ..).symm

theorem suspend (h : a.Nests f b) (r : Revisit) : (a.suspend r).Nests f (b.suspend r.nest) := by
  obtain ⟨e, hb⟩ := h.revisits
  refine { h with revisits := ⟨e, ?_⟩ }
  rw [Search.suspend, hb, Search.suspend, List.map_append]
  rfl

theorem map_modify {α β : Type} {F : α → β} {φ : α → α} {ψ : β → β} (h : ∀ x, F (φ x) = ψ (F x))
    (l : List α) (n : Nat) : (l.modify n φ).map F = (l.map F).modify n ψ := by
  induction l generalizing n with
  | nil => simp
  | cons x l ih => cases n <;> simp [h, ih]

theorem markResumed (h : a.Nests f b) {i : RevisitId} {e : RevisitEntry} (hi : a.record? i = some e) :
    (a.markResumed i).Nests f (b.markResumed i.nest) := by
  obtain ⟨e₁, hb⟩ := h.revisits
  obtain ⟨n, hn, -⟩ := Numbered.get?_eq_some_iff.mp hi
  refine { h with revisits := ⟨e₁, ?_⟩ }
  rw [Search.markResumed, hb, Search.markResumed, RevisitId.nest, hn]
  exact congrArg (e₁ :: ·) (map_modify (by intro x; rfl) a.revisits n).symm

theorem openSession (h : a.Nests f b) {root : Job} (hs : root.link = none) (w : RevisitId) :
    (a.openSession root w).Nests f (b.openSession root w.nest) := by
  obtain ⟨k, hk, hkeys⟩ := h.keys
  obtain ⟨u, vs, hb, hu, hx, hall⟩ := h.sessions
  refine { h with
    queue := ?_
    keys := ⟨k, hk, ?_⟩
    sessions := ⟨u, vs ++ [⟨.pending, Deque.empty.pushBack w.nest, 1, none⟩], ?_, hu, hx, ?_⟩ }
  · rw [Search.openSession, Search.openSession, h.queue, List.map_append, h.nextSession]
    simp [Job.nest, Context.nest, nestSession, hs]
  · rw [Search.openSession, hkeys]
    rfl
  · rw [Search.openSession, hb]
    rfl
  · exact List.rel_append hall (.cons ⟨rfl, by simp, rfl, rfl⟩ .nil)

theorem join (h : a.Nests f b) {i : SessionId} (hi : a.session? i ≠ none) (w : RevisitId) :
    (a.join i w).Nests f (b.join i.nest w.nest) :=
  h.modifySession hi fun u v huv =>
    ⟨huv.result, by simp [huv.waiters], huv.outstanding, huv.exceeded⟩

theorem exceed (h : a.Nests f b) {i : SessionId} (hi : a.session? i ≠ none) (x : Counterexample) :
    (a.exceed i x).Nests f (b.exceed i.nest x) :=
  h.modifySession hi fun u v huv =>
    ⟨huv.result, huv.waiters, huv.outstanding, by rw [huv.exceeded]⟩

theorem release (h : a.Nests f b) {i : SessionId} (hi : a.session? i ≠ none) :
    (a.release i).Nests f (b.release i.nest) :=
  h.modifySession hi fun u v huv =>
    ⟨huv.result, huv.waiters, by rw [huv.outstanding], huv.exceeded⟩

theorem complete (h : a.Nests f b) {i : SessionId} (hi : a.session? i ≠ none)
    (result : SessionResult) : (a.complete i result).Nests f (b.complete i.nest result) := by
  have hm := h.modifySession hi (φ := fun u => { u with result }) (ψ := fun u => { u with result })
    fun u v huv => ⟨rfl, huv.waiters, huv.outstanding, huv.exceeded⟩
  refine { hm with resolved := ?_ }
  rw [Search.complete, Search.complete, h.resolved, List.map_append]
  rfl

end Nests

end Search

/-! ### The same move inside -/

theorem Reaction.nests_tasks (n m : Nat) (c : Context) (link : Option RevisitId) (o : Obligation)
    (reaction : Reaction) :
    List.Forall₂ Task.Nests (reaction.tasks n c link o)
      (reaction.tasks m c.nest (link.map RevisitId.nest) o) := by
  cases reaction with
  | proceed => exact .cons (.execute ..) .nil
  | met => exact .cons (.resume ..) .nil
  | fail x => exact .cons (.fail ..) .nil

theorem Unfolding.nests_tasks (j : Job) (u : Unfolding) :
    List.Forall₂ Task.Nests (u.tasks j) (u.tasks j.nest) := by
  cases u with
  | pass => exact .cons (.resume ..) .nil
  | fail v => exact .cons (.fail ..) .nil
  | obligation o => exact .cons (.execute ..) .nil

theorem Obligation.jobs?_nest {c : Context} {link : Option RevisitId} {o : Obligation}
    {jobs : List Job} (h : o.jobs? g c link = some jobs) :
    o.jobs? g c.nest (link.map RevisitId.nest) = some (jobs.map Job.nest) := by
  cases o with
  | here e =>
    cases h
    rfl
  | successors e | step e =>
    cases h
    simp only [jobs?, Context.spread, List.map_map]
    rfl
  | constrain e w =>
    rw [jobs?] at h ⊢
    split at h
    · next hm =>
      cases h
      have hm' : c.nest.window.merge w = _ := hm
      rw [hm']
      rfl
    · cases h
  | revisit => cases h

/-- The first session has nothing left but what is released now. -/
def Search.Finishing (s : Search) : Prop :=
  ∃ ts u, s.tasks = .release (some ⟨1⟩) :: ts ∧ s.session? ⟨1⟩ = some u ∧ u.outstanding = 1

/-- Every move is made inside, too, unless it is the last for the first session. -/
theorem Move.nest (h : Move g a a') (hn : a.Nests f b) (hv : a.Valid g) (hb : b.Ready g)
    (hr : a.All base (a.Reached f)) : (∃ b', Move g b b' ∧ a'.Nests f b') ∨ b.Finishing := by
  have hnil (ht : a.tasks = []) : b.tasks = [] := by
    have htasks := hn.tasks
    rw [ht] at htasks
    exact List.forall₂_nil_left_iff.mp htasks
  have hcons {k : Task} {ts : List Task} (ht : a.tasks = k :: ts) : ∃ k' ts', b.tasks = k' :: ts' ∧
      k.Nests k' ∧ List.Forall₂ Task.Nests ts ts' := by
    have htasks := hn.tasks
    rw [ht] at htasks
    obtain ⟨k', ts', hk, hts, hb⟩ := List.forall₂_cons_left_iff.mp htasks
    exact ⟨k', ts', hb, hk, hts⟩
  have happend {l l' ts ts' : List Task} (hl : List.Forall₂ Task.Nests l l')
      (hts : List.Forall₂ Task.Nests ts ts') : List.Forall₂ Task.Nests (l ++ ts) (l' ++ ts') :=
    List.rel_append hl hts
  have hresume {n : Nat} {c : Context} {i : RevisitId} {ts : List Task}
      (ht : a.tasks = .resume n c (some i) :: ts) : ∃ m ts',
        b.tasks = .resume (m + 1) c.nest (some i.nest) :: ts' ∧
        List.Forall₂ Task.Nests ts ts' := by
    obtain ⟨_, ts', ht', hk, hts⟩ := hcons ht
    cases hk with
    | resume n m =>
      rw [Search.Ready, ht'] at hb
      obtain ⟨m, rfl⟩ := Nat.exists_eq_succ_of_ne_zero (Nat.ne_of_gt (hb i.nest rfl).1)
      exact ⟨m, ts', ht', hts⟩
  have hsession {i : SessionId} (hi : a.result? (some i) ≠ none) : a.session? i ≠ none :=
    fun hnone => hi (by rw [Search.result?, hnone]; rfl)
  cases h with
  | @notify i rest u ht hres hi =>
    obtain ⟨v, hiv, huv⟩ := hn.session hi
    refine .inl ⟨_, .notify (hnil ht) (by rw [hn.resolved, hres]; rfl) hiv, ?_⟩
    have hd := hn.modifySession (by rw [hi]; simp) (φ := fun u => { u with waiters := .empty })
      (ψ := fun u => { u with waiters := .empty })
      fun u v huv => ⟨huv.result, rfl, huv.outstanding, huv.exceeded⟩
    refine { hd with resolved := rfl, tasks := ?_ }
    rw [huv.waiters, huv.result, List.map_map]
    exact List.forall₂_map_left_iff.mpr (List.forall₂_map_right_iff.mpr
      (List.forall₂_same.mpr fun w _ => .tell u.result w))
  | @take j rest ht hres hq =>
    refine .inl ⟨_, .take (hnil ht) (by rw [hn.resolved, hres]; rfl) (hn.takes hq), ?_⟩
    exact { hn with queue := rfl, tasks := .cons (.process j) .nil }
  | @stale j ts ht hs =>
    obtain ⟨_, ts', ht', ⟨⟩, hts⟩ := hcons ht
    exact .inl ⟨_, .stale ht' (hn.settled hs), hn.withTasks (.cons (.release _) hts)⟩
  | @repeated j ts ht ho hvis =>
    obtain ⟨_, ts', ht', ⟨⟩, hts⟩ := hcons ht
    refine .inl ⟨_, .repeated ht' (hn.opened ho) ?_, hn.withTasks (.cons (.release _) hts)⟩
    exact (hn.visited j.visitKey (Search.session_ne_zero (hv.head ht).session)).mpr hvis
  | @visit j ts node u ht ho hvis hnode hu =>
    obtain ⟨_, ts', ht', ⟨⟩, hts⟩ := hcons ht
    have hj : j.visitKey.session ≠ some ⟨0⟩ := Search.session_ne_zero (hv.head ht).session
    refine .inl ⟨_, .visit (j := j.nest) ht' (hn.opened ho)
      (fun h => hvis ((hn.visited j.visitKey hj).mp h)) hnode hu, ?_⟩
    refine { hn with
      visited := fun k hk => ?_
      tasks := happend (u.nests_tasks j) (.cons (.release _) hts) }
    have hnest : k.nest = j.nest.visitKey ↔ k = j.visitKey :=
      ⟨fun h => VisitKey.nest_inj hk hj h, fun h => by rw [h]; rfl⟩
    simp only [List.mem_append, List.mem_singleton, hn.visited k hk, hnest]
  | @spawn n c link o ts jobs ht hj =>
    obtain ⟨_, ts', ht', hk, hts⟩ := hcons ht
    cases hk
    exact .inl ⟨_, .spawn ht' (Obligation.jobs?_nest hj),
      (hn.push (hv.head ht).1.session jobs).withTasks hts⟩
  | @judge n c link o p ts node judgement ht hp hnode hj =>
    obtain ⟨_, ts', ht', hk, hts⟩ := hcons ht
    cases hk
    exact .inl ⟨_, .judge ht' hp hnode hj, hn.withTasks (happend (Reaction.nests_tasks ..) hts)⟩
  | @require n c link o p ts ht hp hk =>
    obtain ⟨_, ts', ht', hk', hts⟩ := hcons ht
    cases hk'
    refine .inl ⟨_, .require ht' hp hk, ?_⟩
    rw [hn.nextRevisit]
    exact ((hn.suspend ⟨c, o, p, link⟩).push (hv.head ht).1.session _).withTasks hts
  | @inquire n c link o p ts ht hp hk hkey =>
    obtain ⟨_, ts', ht', hk', hts⟩ := hcons ht
    cases hk'
    have hkey' : (c.nest.inquiry p.formula).sessionKey ∉ b.keys := by
      obtain ⟨k, hkf, hkeys⟩ := hn.keys
      rw [hkeys, List.mem_cons, not_or]
      refine ⟨fun heq => ?_, hkey⟩
      have hlt : p.formula.size < f.size := (hr.head ht _ rfl).2.1.2.1
      have hf : p.formula = f := (congrArg SessionKey.formula heq).trans hkf
      rw [hf] at hlt
      exact Nat.lt_irrefl _ hlt
    refine .inl ⟨_, .inquire ht' hp hk hkey', ?_⟩
    rw [hn.nextRevisit]
    exact (((hn.suspend ⟨c, o, p, link⟩).openSession rfl _).retain
      (Search.Extends.result_ne_none (Search.extends_openSession _ _ _) (hv.head ht).1.session)
      1).withTasks hts
  | @join n c link o p ts i ht hp hk hkey hi =>
    obtain ⟨_, ts', ht', hk', hts⟩ := hcons ht
    cases hk'
    obtain ⟨u, hu, -⟩ := Option.map_eq_some_iff.mp hi
    refine .inl ⟨_, .join ht' hp hk (hn.key hkey) (hn.opened hi), ?_⟩
    rw [hn.nextRevisit]
    refine (((hn.suspend ⟨c, o, p, link⟩).join (i := i) ?_ _).retain
      (Search.Extends.result_ne_none (Search.extends_join _ _ _) (hv.head ht).1.session)
      1).withTasks hts
    exact Option.ne_none_iff_exists'.mpr ⟨u, hu⟩
  | @answerLate n c link o p ts i ht hp hk hkey hi hs =>
    obtain ⟨_, ts', ht', hk', hts⟩ := hcons ht
    cases hk'
    exact .inl ⟨_, .answerLate ht' hp hk (hn.key hkey) (hn.settled hi) (hn.settled hs),
      (hn.suspend ⟨c, o, p, link⟩).withTasks hts⟩
  | @answer n c link o p ts i u finding ht hp hk hkey hi hf ho =>
    obtain ⟨_, ts', ht', hk', hts⟩ := hcons ht
    cases hk'
    obtain ⟨v, hiv, huv⟩ := hn.session hi
    exact .inl ⟨_, .answer ht' hp hk (hn.key hkey) hiv (by rw [huv.result]; exact hf) (hn.opened ho),
      (hn.suspend ⟨c, o, p, link⟩).withTasks (happend (Reaction.nests_tasks ..) hts)⟩
  | @resumeNone n c ts ht =>
    obtain ⟨_, ts', ht', hk', hts⟩ := hcons ht
    cases hk'
    exact .inl ⟨_, .resumeNone ht', hn.withTasks hts⟩
  | @resumeAgain n c i ts e ht hi hres =>
    obtain ⟨m, ts', ht', hts⟩ := hresume ht
    exact .inl ⟨_, .resumeAgain ht' (hn.record hi) hres, hn.withTasks hts⟩
  | @resumeLate n c i ts e ht hi hres hs =>
    obtain ⟨m, ts', ht', hts⟩ := hresume ht
    exact .inl ⟨_, .resumeLate ht' (hn.record hi) hres (hn.settled hs),
      (hn.markResumed hi).withTasks hts⟩
  | @resume n c i ts e ht hi hres ho =>
    obtain ⟨m, ts', ht', hts⟩ := hresume ht
    exact .inl ⟨_, .resume ht' (hn.record hi) hres (hn.opened ho),
      (hn.markResumed hi).withTasks (.cons (.execute ..) hts)⟩
  | @tellLate result i ts e ht hi hs =>
    obtain ⟨_, ts', ht', hk', hts⟩ := hcons ht
    cases hk'
    exact .inl ⟨_, .tellLate ht' (hn.record hi) (hs.imp id hn.settled),
      hn.withTasks (.cons (.release _) hts)⟩
  | @tell result i ts e finding ht hi hf ho =>
    obtain ⟨_, ts', ht', hk', hts⟩ := hcons ht
    cases hk'
    exact .inl ⟨_, .tell ht' (hn.record hi) hf (hn.opened ho),
      hn.withTasks (happend (Reaction.nests_tasks ..) (.cons (.release _) hts))⟩
  | @exceed i x ts ht hx =>
    obtain ⟨_, ts', ht', hk', hts⟩ := hcons ht
    cases hk'
    exact .inl ⟨_, .exceed ht' hx, (hn.exceed (hsession (hv.head ht)) x).withTasks hts⟩
  | @decide i x ts ht hx hi =>
    obtain ⟨_, ts', ht', hk', hts⟩ := hcons ht
    cases hk'
    exact .inl ⟨_, .decide ht' hx (hn.opened hi),
      (hn.complete (hsession (hv.head ht)) _).withTasks hts⟩
  | @decideLate i x ts ht hx hi =>
    obtain ⟨_, ts', ht', hk', hts⟩ := hcons ht
    cases hk'
    exact .inl ⟨_, .decideLate ht' hx (hn.settled hi), hn.withTasks hts⟩
  | @releaseNone ts ht =>
    obtain ⟨_, ts', ht', hk', hts⟩ := hcons ht
    cases hk'
    rw [Search.Ready, ht'] at hb
    obtain ⟨u, hu, hne⟩ := hb ⟨1⟩ rfl
    by_cases hone : u.outstanding = 1
    · exact .inr ⟨ts', u, ht', hu, hone⟩
    · exact .inl ⟨_, .release ht' hu hne (.inl hone),
        (hn.modifyFirst (by intro u; rfl) (by intro u; rfl)).withTasks hts⟩
  | @release i ts u ht hi hne hl =>
    obtain ⟨_, ts', ht', hk', hts⟩ := hcons ht
    cases hk'
    obtain ⟨v, hiv, huv⟩ := hn.session hi
    refine .inl ⟨_, .release ht' hiv (by rw [huv.outstanding]; exact hne)
      (by rw [huv.outstanding, huv.result]; exact hl), (hn.release ?_).withTasks hts⟩
    exact Option.ne_none_iff_exists'.mpr ⟨u, hi⟩
  | @finish i ts u ht hi hone hres =>
    obtain ⟨_, ts', ht', hk', hts⟩ := hcons ht
    cases hk'
    obtain ⟨v, hiv, huv⟩ := hn.session hi
    have houtcome : v.outcome = u.outcome := by rw [Session.outcome, huv.exceeded]; rfl
    have hne : a.session? i ≠ none := Option.ne_none_iff_exists'.mpr ⟨u, hi⟩
    refine .inl ⟨_, .finish ht' hiv (by rw [huv.outstanding]; exact hone)
      (by rw [huv.result]; exact hres), ?_⟩
    rw [houtcome]
    exact ((hn.release hne).complete (by
      rw [Search.release, Search.session?_modifySession, if_pos rfl, hi]
      simp) u.outcome).withTasks hts

/-- The whole search is made inside, or the first session is decided on the way. -/
theorem Moves.nest {order : PendingOrder} {fs fs' : List Formula} {past past' : Search}
    (h : Moves g a a') (hn : a.Nests (current fs) b) (ha : Course g order fs past a)
    (hb : Course g order fs' past' b) :
    (∃ b', Moves g b b' ∧ a'.Nests (current fs) b') ∨
    ∃ a₁ b₁, Moves g a a₁ ∧ Moves g a₁ a' ∧ Moves g b b₁ ∧ a₁.Nests (current fs) b₁ ∧
      b₁.Finishing := by
  induction h generalizing b with
  | refl a => exact .inl ⟨b, .refl b, hn⟩
  | @step a a₁ a' first rest ih =>
    rcases first.nest hn ha.valid_accounts.1 hb.ready ha.reached with ⟨b₁, hm, hn₁⟩ | hfin
    · rcases ih hn₁ (ha.move first) (hb.move hm) with ⟨b', hm', hn'⟩ |
        ⟨a₂, b₂, hm₁, hm₂, hmb, hn₂, hfin⟩
      · exact .inl ⟨b', .step hm hm', hn'⟩
      · exact .inr ⟨a₂, b₂, .step first hm₁, hm₂, .step hm hmb, hn₂, hfin⟩
    · exact .inr ⟨a, b, .refl a, .step first rest, .refl b, hn, hfin⟩

end CostCTL
