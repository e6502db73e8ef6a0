import CostCTL.Proofs.Move

/-!
# The course of a check

The searches that a check goes through, from requirement to requirement, and what is common to
all of them. Records are never lost: revisits, keys and visited jobs stay, and so does the result
of a session (`Search.Extends`). Whatever refers to a record refers to one that is there
(`Search.Valid`).
-/

namespace CostCTL

namespace Search

variable {g : Kripke} {s t u : Search}

/-! ### Records stay -/

/-- Every record of `s` is on record in `t`. -/
structure Extends (s t : Search) : Prop where
  entry : ∀ i e, s.record? i = some e →
    ∃ b, t.record? i = some ⟨e.revisit, b⟩ ∧ (e.resumed = true → b = true)
  key : ∀ i k, s.key? i = some k → t.key? i = some k
  result : ∀ i r, s.result? i = some r → ∃ r', t.result? i = some r' ∧ (r ≠ .pending → r' = r)
  visited : ∀ v ∈ s.visited, v ∈ t.visited

theorem Extends.trans (h : s.Extends t) (h' : t.Extends u) : s.Extends u where
  entry i e he := by
    obtain ⟨b, hb, hr⟩ := h.entry i e he
    obtain ⟨b', hb', hr'⟩ := h'.entry i _ hb
    exact ⟨b', hb', fun h => hr' (hr h)⟩
  key i k hk := h'.key i k (h.key i k hk)
  result i r hr := by
    obtain ⟨r₁, h₁, eq₁⟩ := h.result i r hr
    obtain ⟨r₂, h₂, eq₂⟩ := h'.result i r₁ h₁
    exact ⟨r₂, h₂, fun hp => by rw [eq₂ (by rw [eq₁ hp]; exact hp), eq₁ hp]⟩
  visited v hv := h'.visited v (h.visited v hv)

/-- Nothing that counts as a record changes. -/
theorem Extends.of_eq (he : t.revisits = s.revisits) (hk : t.keys = s.keys)
    (hr : ∀ i, t.result? i = s.result? i) (hv : t.visited = s.visited) : s.Extends t where
  entry i e h := ⟨e.resumed, by rw [record?, he]; exact h, id⟩
  key i k h := by rw [key?, hk]; exact h
  result i r h := ⟨r, (hr i).trans h, fun _ => rfl⟩
  visited v h := by rw [hv]; exact h

theorem Extends.refl (s : Search) : s.Extends s := .of_eq rfl rfl (fun _ => rfl) rfl

theorem Extends.withTasks (h : s.Extends t) (ts : List Task) : s.Extends (t.withTasks ts) :=
  ⟨h.entry, h.key, h.result, h.visited⟩

theorem extends_retain (s : Search) (n : Nat) (session : Option SessionId) :
    s.Extends (s.retain n session) := by
  cases session with
  | none => exact .refl s
  | some i => exact .of_eq rfl rfl (s.result?_retain n (some i)) rfl

theorem extends_push (s : Search) (session : Option SessionId) (jobs : List Job) :
    s.Extends (s.push session jobs) :=
  (s.extends_retain jobs.length session).trans (.of_eq rfl rfl (fun _ => rfl) rfl)

theorem extends_suspend (s : Search) (r : Revisit) : s.Extends (s.suspend r) where
  entry _ e h := ⟨e.resumed, Numbered.get?_append_of_eq_some h _, id⟩
  key _ _ h := h
  result _ r h := ⟨r, h, fun _ => rfl⟩
  visited _ h := h

theorem extends_markResumed (s : Search) (i : RevisitId) : s.Extends (s.markResumed i) where
  entry k e h := by
    rw [record?_markResumed, h]
    split
    · exact ⟨true, rfl, fun _ => rfl⟩
    · exact ⟨e.resumed, rfl, id⟩
  key _ _ h := h
  result _ r h := ⟨r, h, fun _ => rfl⟩
  visited _ h := h

theorem extends_openSession (s : Search) (root : Job) (waiter : RevisitId) :
    s.Extends (s.openSession root waiter) where
  entry _ e h := ⟨e.resumed, h, id⟩
  key _ _ h := Numbered.get?_append_of_eq_some h _
  result _ r h := ⟨r, result?_openSession h root waiter, fun _ => rfl⟩
  visited _ h := h

theorem extends_join (s : Search) (i : SessionId) (waiter : RevisitId) :
    s.Extends (s.join i waiter) := .of_eq rfl rfl (s.result?_join i waiter) rfl

theorem extends_dismiss (s : Search) (i : SessionId) : s.Extends (s.dismiss i) :=
  .of_eq rfl rfl (s.result?_dismiss i) rfl

theorem extends_exceed (s : Search) (i : SessionId) (x : Counterexample) :
    s.Extends (s.exceed i x) := .of_eq rfl rfl (s.result?_exceed i x) rfl

theorem extends_release (s : Search) (i : SessionId) : s.Extends (s.release i) :=
  .of_eq rfl rfl (s.result?_release i) rfl

theorem result?_complete (s : Search) {i : SessionId} (hi : s.Open (some i))
    (result : SessionResult) (k : Option SessionId) :
    (s.complete i result).result? k = if k = some i then some result else s.result? k := by
  cases k with
  | none => rfl
  | some k =>
    have hs : (s.complete i result).session? k =
        (s.modifySession i fun t => { t with result }).session? k := rfl
    rw [result?, hs, session?_modifySession]
    by_cases h : k = i
    · obtain ⟨t, ht, -⟩ := Option.map_eq_some_iff.mp hi
      simp [h, ht]
    · simp [h, result?]

theorem extends_visit (s : Search) (k : VisitKey) :
    s.Extends { s with visited := s.visited ++ [k] } where
  entry _ e h := ⟨e.resumed, h, id⟩
  key _ _ h := h
  result _ r h := ⟨r, h, fun _ => rfl⟩
  visited _ h := List.mem_append_left _ h

/-- A session gets a result only while it has none. -/
theorem extends_complete {i : SessionId} (hi : s.Open (some i)) (result : SessionResult) :
    s.Extends (s.complete i result) where
  entry _ e h := ⟨e.resumed, h, id⟩
  key _ _ h := h
  result k r h := by
    rw [result?_complete s hi]
    split
    · next hk =>
      subst hk
      exact ⟨result, rfl, fun hr => absurd (Option.some.inj (h.symm.trans hi)) hr⟩
    · exact ⟨r, h, fun _ => rfl⟩
  visited _ h := h

end Search

open Search in
theorem Move.extends {g : Kripke} {s t : Search} (h : Move g s t) : s.Extends t := by
  cases h with
  | notify => exact (s.extends_dismiss _).trans (.of_eq rfl rfl (fun _ => rfl) rfl)
  | visit => exact (s.extends_visit _).withTasks _
  | spawn => exact (s.extends_push _ _).withTasks _
  | require => exact ((s.extends_suspend _).trans (extends_push _ _ _)).withTasks _
  | inquire =>
    exact (((s.extends_suspend _).trans (extends_openSession _ _ _)).trans
      (extends_retain _ _ _)).withTasks _
  | join =>
    exact (((s.extends_suspend _).trans (extends_join _ _ _)).trans
      (extends_retain _ _ _)).withTasks _
  | answerLate | answer => exact (s.extends_suspend _).withTasks _
  | resumeLate | resume => exact (s.extends_markResumed _).withTasks _
  | exceed => exact (s.extends_exceed _ _).withTasks _
  | decide _ _ hi => exact (extends_complete hi _).withTasks _
  | release => exact (s.extends_release _).withTasks _
  | finish _ hi _ hr =>
    refine ((s.extends_release _).trans (extends_complete ?_ _)).withTasks _
    rw [Open, result?_release, result?, hi, Option.map_some, hr]
  | take | stale | repeated | judge | resumeNone | resumeAgain | tellLate | tell | decideLate
    | releaseNone => exact .of_eq rfl rfl (fun _ => rfl) rfl

theorem Moves.extends {g : Kripke} {s t : Search} (h : Moves g s t) : s.Extends t := by
  induction h with
  | refl s => exact .refl s
  | step first _ ih => exact first.extends.trans ih

/-- Without records. -/
def Search.start (order : PendingOrder) : Search := ⟨order, [], [], [], [], [], [], [], []⟩

/-- The searches that a check goes through: `fs` are the requirements looked at so far, the latest
first, and `past` is the search before the latest of them. -/
inductive Course (g : Kripke) (order : PendingOrder) : List Formula → Search → Search → Prop where
  | start : Course g order [] (.start order) (.start order)
  | seed {fs : List Formula} {past s : Search} (before : Course g order fs past s) (hs : s.Idle)
      (f : Formula) : Course g order (f :: fs) s (s.seed g f.universal)
  | move {fs : List Formula} {past s t : Search} (before : Course g order fs past s)
      (hm : Move g s t) : Course g order fs past t

end CostCTL
