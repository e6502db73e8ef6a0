import CostCTL.Proofs.Answer
import CostCTL.Proofs.Determinism
import CostCTL.Proofs.Expansion
import CostCTL.Proofs.Phase

/-!
# Path formulas over state formulas

A path formula whose operands are state formulas is decided from position to position, without
sessions and revisits. At each position it goes on to the successors, or is met, or fails, by its
operands at the node and by how its window stands at the cost (`Formula.Ruled`). A turn on such a
formula does as it is ruled (`Moves.ruled`).
-/

namespace CostCTL

variable {g : Kripke} {s t : Search} {f : Formula}

/-- What is to be done about a path formula at a position. -/
inductive Ruling where
  | on
  | met
  | fail (v : Violation)

def Ruling.tasks (f : Formula) (n : Nat) (c : Context) (link : Option RevisitId) :
    Ruling → List Task
  | .on => [.execute n c link (.successors f)]
  | .met => [.resume n c link]
  | .fail v => [.fail c.session (c.counterexample v)]

namespace Formula

/-- A formula that goes on, over state formulas. -/
def isSimple : Formula → Bool
  | always .all e | eventually .all e => e.isState
  | strongUntil .all l r | weakUntil .all l r => l.isState && r.isState
  | _ => false

/-- What it obliges to inside its window. -/
def inside (f : Formula) : Obligation :=
  match f with
  | always _ e => .revisit (.successors f) ⟨.required, e⟩
  | eventually _ e => .revisit (.successors f) ⟨.skip, e⟩
  | strongUntil _ l r | weakUntil _ l r => untilObligation f l r
  | _ => .successors f

/-- A closed cycle decides. Before the window the formula goes on, after it it fails, and inside it
is ended or kept by its operands. -/
inductive Ruled (g : Kripke) (f : Formula) (c : Context) : Ruling → Prop where
  | passed (hc : c.inCycle = true) (hf : f.isEventuality = false) : Ruled g f c .met
  | missed (hc : c.inCycle = true) (hf : f.isEventuality = true) :
    Ruled g f c (.fail (.noWitness f c.node))
  | early (hc : c.inCycle = false) (hw : c.window.isAhead c.cost = true) : Ruled g f c .on
  | late {x : Statement} (hc : c.inCycle = false) (hw : c.window.verdict c.cost = .violated x) :
    Ruled g f c (.fail (.constraint x c.cost c.node))
  | ended (hc : c.inCycle = false) (hw : c.window.verdict c.cost = .satisfied)
      (he : f.ends.Holds g c.node) : Ruled g f c .met
  | broken (hc : c.inCycle = false) (hw : c.window.verdict c.cost = .satisfied)
      (he : ¬ f.ends.Holds g c.node) (hk : ¬ f.keeps.Holds g c.node) :
    Ruled g f c (.fail (.unsatisfied f.keeps c.node))
  | kept (hc : c.inCycle = false) (hw : c.window.verdict c.cost = .satisfied)
      (he : ¬ f.ends.Holds g c.node) (hk : f.keeps.Holds g c.node) : Ruled g f c .on

theorem isOngoing_of_isSimple (hf : f.isSimple = true) : f.isOngoing = true := by
  unfold isSimple at hf
  split at hf
  all_goals first | rfl | cases hf

/-- Its operands have no quantifiers, and its own is universal. -/
theorem universal_of_isSimple (hf : f.isSimple = true) : f.universal = f := by
  unfold isSimple at hf
  split at hf
  · rw [universal, universal_of_isState hf]
  · rw [universal, universal_of_isState hf]
  · rw [Bool.and_eq_true] at hf
    rw [universal, universal_of_isState hf.1, universal_of_isState hf.2]
  · rw [Bool.and_eq_true] at hf
    rw [universal, universal_of_isState hf.1, universal_of_isState hf.2]
  · cases hf

theorem unfoldTemporal_of_isOngoing (hf : f.isOngoing = true) (p : Position) :
    f.unfoldTemporal p = proceed p f
      (if f.isEventuality then .fail (.noWitness f p.id) else .pass) f.inside := by
  unfold isOngoing at hf
  split at hf
  all_goals first | rfl | cases hf

theorem isState_of_isOngoing (hf : f.isOngoing = true) : f.isState = false := by
  unfold isOngoing at hf
  split at hf
  all_goals first | rfl | cases hf

end Formula

open Formula

/-! ### One turn -/

section Turn

variable {c : Context} {link : Option RevisitId} {node : Node}

/-- A state formula that is not looked at before the window. -/
theorem Formula.judge_of_not_isAhead (hs : f.isState = true) (hd : f.Evaluates g)
    (hn : g.node? c.node = some node) (hw : c.window.isAhead c.cost = false) :
    (∃ x, c.window.verdict c.cost = .violated x ∧
      f.judge (c.position node) = .ok (.late (.constraint x c.cost c.node))) ∨
    c.window.verdict c.cost = .satisfied ∧
      ((f.Holds g c.node ∧ f.judge (c.position node) = .ok .holds) ∨
      (¬ f.Holds g c.node ∧ f.judge (c.position node) = .ok (.fails (.unsatisfied f c.node)))) := by
  unfold judge
  rcases Window.verdict_of_not_isAhead hw with hv | ⟨x, hv⟩
  · obtain ⟨b, hb⟩ := hd.isValuedOn hs c.node node hn
    have hholds := holds_iff_of_holdsAt hn hb
    have hv' : (c.position node).window.verdict (c.position node).cost = .satisfied := hv
    have hb' : f.holdsAt (c.position node).node (c.position node).id = .ok b := hb
    rw [hv', hb']
    refine .inr ⟨hv, ?_⟩
    cases b with
    | true => exact .inl ⟨hholds.mpr rfl, rfl⟩
    | false => exact .inr ⟨fun h => by simpa using hholds.mp h, rfl⟩
  · have hv' : (c.position node).window.verdict (c.position node).cost = .violated x := hv
    rw [hv']
    exact .inl ⟨x, hv, rfl⟩

/-- What is required must hold now. -/
theorem Moves.judge_required {n : Nat} {o : Obligation} {ts : List Task} (hs : f.isState = true)
    (hd : f.Evaluates g) (hn : g.node? c.node = some node) (hw : c.window.isAhead c.cost = false)
    (ht : s.tasks = .execute n c link (.revisit o ⟨.required, f⟩) :: ts) :
    (∃ x, c.window.verdict c.cost = .violated x ∧ Moves g s (s.withTasks
      (.fail c.session (c.counterexample (.constraint x c.cost c.node)) :: ts))) ∨
    c.window.verdict c.cost = .satisfied ∧
      ((f.Holds g c.node ∧ Moves g s (s.withTasks (.execute n c link o :: ts))) ∨
      (¬ f.Holds g c.node ∧ Moves g s (s.withTasks
        (.fail c.session (c.counterexample (.unsatisfied f c.node)) :: ts)))) := by
  rcases judge_of_not_isAhead hs hd hn hw with ⟨x, hv, hj⟩ | ⟨hv, ⟨hf, hj⟩ | ⟨hf, hj⟩⟩
  · exact .inl ⟨x, hv, .single (.judge ht hs hn hj)⟩
  · exact .inr ⟨hv, .inl ⟨hf, .single (.judge ht hs hn hj)⟩⟩
  · exact .inr ⟨hv, .inr ⟨hf, .single (.judge ht hs hn hj)⟩⟩

/-- What may be skipped to is met if it holds now. -/
theorem Moves.judge_skip {n : Nat} {o : Obligation} {ts : List Task} (hs : f.isState = true)
    (hd : f.Evaluates g) (hn : g.node? c.node = some node) (hw : c.window.isAhead c.cost = false)
    (ht : s.tasks = .execute n c link (.revisit o ⟨.skip, f⟩) :: ts) :
    (∃ x, c.window.verdict c.cost = .violated x ∧ Moves g s (s.withTasks
      (.fail c.session (c.counterexample (.constraint x c.cost c.node)) :: ts))) ∨
    c.window.verdict c.cost = .satisfied ∧
      ((f.Holds g c.node ∧ Moves g s (s.withTasks (.resume n c link :: ts))) ∨
      (¬ f.Holds g c.node ∧ Moves g s (s.withTasks (.execute n c link o :: ts)))) := by
  rcases judge_of_not_isAhead hs hd hn hw with ⟨x, hv, hj⟩ | ⟨hv, ⟨hf, hj⟩ | ⟨hf, hj⟩⟩
  · exact .inl ⟨x, hv, .single (.judge ht hs hn hj)⟩
  · exact .inr ⟨hv, .inl ⟨hf, .single (.judge ht hs hn hj)⟩⟩
  · exact .inr ⟨hv, .inr ⟨hf, .single (.judge ht hs hn hj)⟩⟩

variable {n : Nat} {ts : List Task}

/-- An until that is looked at inside its window, or after it. -/
theorem Moves.ruled_until (hk : f.keeps.isState = true) (he : f.ends.isState = true)
    (hdk : f.keeps.Evaluates g) (hde : f.ends.Evaluates g) (hn : g.node? c.node = some node)
    (hc : c.inCycle = false) (hw : c.window.isAhead c.cost = false)
    (ht : s.tasks = .execute n c link (untilObligation f f.keeps f.ends) :: ts) :
    ∃ ruling, f.Ruled g c ruling ∧ Moves g s (s.withTasks (ruling.tasks f n c link ++ ts)) := by
  rcases judge_skip he hde hn hw ht with ⟨x, hv, hm⟩ | ⟨hv, ⟨hend, hm⟩ | ⟨hend, hm⟩⟩
  · exact ⟨_, .late hc hv, hm⟩
  · exact ⟨_, .ended hc hv hend, hm⟩
  · have ht' : (s.withTasks (.execute n c link (.revisit (.successors f) ⟨.required, f.keeps⟩)
        :: ts)).tasks = _ := rfl
    rcases judge_required hk hdk hn hw ht' with ⟨x, hv', -⟩ | ⟨-, ⟨hkeep, hm'⟩ | ⟨hkeep, hm'⟩⟩
    · rw [hv] at hv'
      cases hv'
    · exact ⟨_, .kept hc hv hend hkeep, hm.trans hm'⟩
    · exact ⟨_, .broken hc hv hend hkeep, hm.trans hm'⟩

/-- A formula that is looked at inside its window, or after it. -/
theorem Moves.ruled_inside (hf : f.isSimple = true) (hd : f.Evaluates g)
    (hn : g.node? c.node = some node) (hc : c.inCycle = false)
    (hw : c.window.isAhead c.cost = false) (ht : s.tasks = .execute n c link f.inside :: ts) :
    ∃ ruling, f.Ruled g c ruling ∧ Moves g s (s.withTasks (ruling.tasks f n c link ++ ts)) := by
  unfold isSimple at hf
  split at hf
  · next e =>
    rcases judge_required hf hd hn hw ht with ⟨x, hv, hm⟩ | ⟨hv, ⟨hk, hm⟩ | ⟨hk, hm⟩⟩
    · exact ⟨_, .late hc hv, hm⟩
    · exact ⟨_, .kept hc hv not_holds_falsum hk, hm⟩
    · exact ⟨_, .broken hc hv not_holds_falsum hk, hm⟩
  · next e =>
    rcases judge_skip hf hd hn hw ht with ⟨x, hv, hm⟩ | ⟨hv, ⟨he, hm⟩ | ⟨he, hm⟩⟩
    · exact ⟨_, .late hc hv, hm⟩
    · exact ⟨_, .ended hc hv he, hm⟩
    · exact ⟨_, .kept hc hv he not_holds_falsum, hm⟩
  · next l r =>
    rw [Bool.and_eq_true] at hf
    exact ruled_until hf.1 hf.2 hd.1 hd.2 hn hc hw ht
  · next l r =>
    rw [Bool.and_eq_true] at hf
    exact ruled_until hf.1 hf.2 hd.1 hd.2 hn hc hw ht
  · cases hf

/-- A turn on a job does as its formula is ruled. -/
theorem Moves.ruled {j : Job} (hf : j.formula.isSimple = true) (hd : j.formula.Evaluates g)
    (hn : g.node? j.node = some node) (ht : s.tasks = .process j :: ts) (ho : s.Open j.session)
    (hv : j.visitKey ∉ s.visited) :
    ∃ ruling, j.formula.Ruled g j.toContext ruling ∧ Moves g s { s with
      visited := s.visited ++ [j.visitKey]
      tasks := ruling.tasks j.formula (chainBound j.link) j.toContext j.link ++
        .release j.session :: ts } := by
  have hongoing := isOngoing_of_isSimple hf
  have hvisit {u : Unfolding} (hu : proceed (j.position node) j.formula
      (if j.formula.isEventuality then .fail (.noWitness j.formula j.node) else .pass)
      j.formula.inside = u) : Move g s { s with
        visited := s.visited ++ [j.visitKey]
        tasks := u.tasks j ++ .release j.session :: ts } := by
    refine .visit ht ho hv hn ?_
    rw [Formula.unfold, if_neg (by simp [isState_of_isOngoing hongoing]),
      unfoldTemporal_of_isOngoing hongoing, ← hu]
    rfl
  cases hc : j.inCycle with
  | true =>
    cases he : j.formula.isEventuality with
    | true => exact ⟨_, .missed hc he, .single (hvisit (u := .fail _) (by simp [proceed, Context.position, hc, he]))⟩
    | false => exact ⟨_, .passed hc he, .single (hvisit (u := .pass) (by simp [proceed, Context.position, hc, he]))⟩
  | false =>
    cases hw : j.window.isAhead j.cost with
    | true =>
      exact ⟨_, .early hc hw, .single (hvisit (u := .obligation (.successors j.formula))
        (by simp [proceed, Position.beforeWindow, Context.position, hc, hw]))⟩
    | false =>
      have hmove := hvisit (u := .obligation j.formula.inside)
        (by simp [proceed, Position.beforeWindow, Context.position, hc, hw])
      obtain ⟨ruling, hr, hm⟩ := ruled_inside hf hd hn hc hw (s := { s with
        visited := s.visited ++ [j.visitKey]
        tasks := (Unfolding.obligation j.formula.inside).tasks j ++ .release j.session :: ts }) rfl
      exact ⟨ruling, hr, .step hmove hm⟩

end Turn

/-- A check of a single requirement accepts it if its search comes to nothing more to do. -/
theorem Checker.check_iff_idle {c : Checker} (hl : c.settings.popLimit = none)
    (hv : f.validate = .ok ()) (hd : f.Evaluates c.graph) :
    ∃ past z, Course c.graph c.store.config.order [f] past z ∧ z.Ends c.graph ∧
      ((c.check [f]).1.result = .ok () ↔ z.Idle) := by
  obtain ⟨past, z, hz, ⟨hidle, hok⟩ | ⟨x, hx, hno⟩⟩ := check_of_evaluates hl hv hd
  · exact ⟨past, z, hz, .inl hidle, iff_of_true hok hidle⟩
  · refine ⟨past, z, hz, .inr ⟨x, hx⟩, iff_of_false ?_ fun hidle => hidle.not_refuted hx⟩
    rw [hno]
    simp

/-! ### Places on the way -/

/-- The context came through the node at this cost, or later. -/
def Context.Passed (c : Context) (n : NodeId) (cost : Cost) : Prop :=
  ∃ seen, c.history.get? n = some seen ∧ cost ≤ seen ∧ seen ≤ c.cost

namespace Context

variable {c : Context} {n : NodeId} {cost : Cost}

/-- Coming again to where it was closes a cycle. -/
theorem Passed.inCycle (h : c.Passed c.node c.relevantCost) : c.inCycle = true := by
  obtain ⟨seen, hget, hlow, hhigh⟩ := h
  unfold Context.inCycle closesCycle
  rw [hget]
  cases he : c.window.isEmpty with
  | true => simp [Window.isAhead, Window.verdict_of_isEmpty he]
  | false =>
    rw [relevantCost, he] at hlow
    simp [Cost.le_antisymm hhigh hlow]

theorem get?_leave (c : Context) (n : NodeId) :
    c.leave.get? n = if n == c.node then some c.cost else c.history.get? n :=
  SortedMap.get?_insert ..

theorem Passed.follow (h : c.Passed n cost) (e : Edge) : (c.follow c.leave e).Passed n cost := by
  obtain ⟨seen, hget, hlow, hhigh⟩ := h
  have hle : c.cost ≤ c.cost + e.cost := Cost.le_add _ _
  by_cases hn : n == c.node
  · exact ⟨c.cost, by rw [Context.follow, get?_leave, if_pos hn], Cost.le_trans hlow hhigh, hle⟩
  · exact ⟨seen, by rw [Context.follow, get?_leave, if_neg hn, hget], hlow, Cost.le_trans hhigh hle⟩

/-- Leaving a place is coming through it. -/
theorem passed_follow (c : Context) (e : Edge) :
    (c.follow c.leave e).Passed c.node c.relevantCost := by
  refine ⟨c.cost, ?_, ?_, Cost.le_add _ _⟩
  · rw [follow, get?_leave, if_pos (beq_self_eq_true _)]
  · unfold relevantCost
    split
    · exact Cost.zero_le _
    · exact Cost.le_refl _

end Context

/-! ### A search for such a formula -/

/-- One turn on a job of the requirement itself, which is for `f` within `w`: the job is dropped, or
constrained to the window, or done with as its formula is ruled. -/
inductive Sweep (g : Kripke) (f : Formula) (w : Window) (s : Search) : Search → Prop where
  | repeated {j : Job} {rest : List Job} (hq : s.Takes j rest) (hv : j.visitKey ∈ s.visited) :
    Sweep g f w s { s with queue := rest }
  | constrain {i : NodeId} {rest : List Job} (hq : s.Takes (.root i (.within f w)) rest)
      (hv : (Job.root i (.within f w)).visitKey ∉ s.visited) :
    Sweep g f w s { s with
      queue := rest ++ [⟨{ Context.start i with window := w }, f, none⟩]
      visited := s.visited ++ [(Job.root i (.within f w)).visitKey] }
  | on {j : Job} {rest : List Job} (hq : s.Takes j rest) (hv : j.visitKey ∉ s.visited)
      (hf : j.formula = f) (hw : j.window = w) (hr : f.Ruled g j.toContext .on) :
    Sweep g f w s { s with
      queue := rest ++ j.spread g none j.leave f
      visited := s.visited ++ [j.visitKey] }
  | met {j : Job} {rest : List Job} (hq : s.Takes j rest) (hv : j.visitKey ∉ s.visited)
      (hf : j.formula = f) (hw : j.window = w) (hr : f.Ruled g j.toContext .met) :
    Sweep g f w s { s with queue := rest, visited := s.visited ++ [j.visitKey] }

/-- The job is the requirement's own, on `f` in its window or still to be constrained to it. -/
structure Job.Swept (f : Formula) (w : Window) (j : Job) : Prop where
  session : j.session = none
  link : j.link = none
  formula : (j.formula = f ∧ j.window = w) ∨ j = .root j.node (.within f w)

theorem Window.eq_of_merge_empty {w u : Window} (h : (∅ : Window).merge w = .ok u) : u = w :=
  (merge_eq_ok_iff.mp h).1.trans w.union_empty_left

namespace Search

variable {w : Window} {j : Job} {rest : List Job}

theorem Takes.mem_iff (h : s.Takes j rest) {k : Job} : k ∈ s.queue ↔ k = j ∨ k ∈ rest := by
  unfold Takes at h
  split at h <;> simp [h, or_comm]

theorem Takes.mem (h : s.Takes j rest) : j ∈ s.queue := h.mem_iff.mpr (.inl rfl)

theorem Takes.rest_subset (h : s.Takes j rest) : rest ⊆ s.queue := fun _ hk => h.mem_iff.mpr (.inr hk)

theorem exists_takes (h : s.queue ≠ []) : ∃ j rest, s.Takes j rest := by
  unfold Takes
  cases s.order with
  | depthFirst => exact ⟨s.queue.getLast h, s.queue.dropLast, (List.dropLast_concat_getLast h).symm⟩
  | breadthFirst => exact ⟨s.queue.head h, s.queue.tail, (List.cons_head_tail h).symm⟩

/-- A turn on a job of the requirement itself is a sweep, or the search halts. -/
theorem exists_sweep (ht : s.tasks = []) (hr : s.resolved = []) (hq : s.Takes j rest)
    (hj : j.Swept f w) (hnode : j.node.index < g.size) (hf : f.isSimple = true)
    (hd : f.Evaluates g) (hw : (∅ : Window).merge w = .ok w) :
    (∃ m t, Move g s m ∧ Moves g m t ∧ Sweep g f w s t) ∨
    ∃ v t, Moves g s t ∧ t.Halts g (.refuted (j.counterexample v)) ∧ j.formula = f ∧
      j.window = w ∧ f.Ruled g j.toContext (.fail v) := by
  obtain ⟨node, hn⟩ := RunM.node?_of_lt hnode
  obtain ⟨⟨i, history, trail, cost, window, session⟩, e, link⟩ := j
  obtain ⟨rfl, rfl, hform⟩ := hj
  obtain ⟨order, queue, visited, revisits, keys, sessions, resolved, told, tasks⟩ := s
  obtain rfl : tasks = [] := ht
  obtain rfl : resolved = [] := hr
  by_cases hv : Job.visitKey ⟨⟨i, history, trail, cost, window, none⟩, e, none⟩ ∈ visited
  · exact .inl ⟨_, _, .take rfl rfl hq, .step (.repeated rfl rfl hv) (.single (.releaseNone rfl)),
      .repeated hq hv⟩
  · rcases hform with ⟨rfl, rfl⟩ | hroot
    · obtain ⟨ruling, hruled, hm⟩ := Moves.ruled (s := ⟨order, rest, visited, revisits, keys, sessions,
        [], told, [.process ⟨⟨i, history, trail, cost, window, none⟩, e, none⟩]⟩) hf hd hn rfl rfl hv
      cases ruling with
      | on =>
        exact .inl ⟨_, _, .take rfl rfl hq, hm.trans (.step (.spawn rfl rfl)
          (.single (.releaseNone rfl))), .on hq hv rfl rfl hruled⟩
      | met =>
        exact .inl ⟨_, _, .take rfl rfl hq, hm.trans (.step (.resumeNone rfl)
          (.single (.releaseNone rfl))), .met hq hv rfl rfl hruled⟩
      | fail v =>
        exact .inr ⟨v, _, .step (.take rfl rfl hq) hm, .refuted rfl, rfl, rfl, hruled⟩
    · simp only [Job.root, Context.start, Job.mk.injEq, Context.mk.injEq] at hroot
      obtain ⟨⟨-, rfl, rfl, rfl, rfl, -⟩, rfl, -⟩ := hroot
      have hjobs : (Obligation.constrain f w).jobs? g (.start i) none =
          some [⟨{ Context.start i with window := w }, f, none⟩] := by
        rw [Obligation.jobs?, Context.start, hw]
      exact .inl ⟨_, _, .take rfl rfl hq, .step (.visit rfl rfl hv hn rfl) (.step (.spawn rfl hjobs)
        (.single (.releaseNone rfl))), .constrain hq hv⟩

end Search

theorem Sweep.records {w : Window} (h : Sweep g f w s t) :
    t.tasks = s.tasks ∧ t.resolved = s.resolved := by
  cases h <;> exact ⟨rfl, rfl⟩

theorem Sweep.swept {w : Window} (h : Sweep g f w s t) (hs : ∀ j ∈ s.queue, j.Swept f w) :
    ∀ j ∈ t.queue, j.Swept f w := by
  cases h with
  | repeated hq hv | met hq hv => exact fun j hj => hs j (hq.rest_subset hj)
  | constrain hq hv =>
    intro j hj
    rcases List.mem_append.mp hj with hj | hj
    · exact hs j (hq.rest_subset hj)
    · obtain rfl := List.mem_singleton.mp hj
      exact ⟨rfl, rfl, .inl ⟨rfl, rfl⟩⟩
  | @on j rest hq hv hf hw hr =>
    intro j' hj'
    rcases List.mem_append.mp hj' with hj' | hj'
    · exact hs j' (hq.rest_subset hj')
    · obtain ⟨e, -, rfl⟩ := List.mem_map.mp hj'
      exact ⟨(hs j hq.mem).session, rfl, .inl ⟨rfl, hw⟩⟩

/-- How a search ends that keeps the property: there is nothing left to do, or a job is taken whose
formula fails. -/
inductive Sweep.End (g : Kripke) (f : Formula) (w : Window) (P : Search → Prop) (z : Search) :
    Prop where
  | idle (hz : z.Idle) (hp : P z)
  | halt {s : Search} {j : Job} {v : Violation} (hp : P s) (hj : j ∈ s.queue) (hf : j.formula = f)
      (hw : j.window = w) (hr : f.Ruled g j.toContext (.fail v))
      (hz : z.Halts g (.refuted (j.counterexample v))) (hnext : ∃ rest, s.Takes j rest)

/-- The jobs are swept, on the course of a check of one requirement. -/
structure Search.Sweeps (g : Kripke) (e f : Formula) (w : Window) (s : Search) : Prop where
  tasks : s.tasks = []
  resolved : s.resolved = []
  queue : ∀ j ∈ s.queue, j.Swept f w
  course : ∃ order, Course g order [e] (.start order) s

theorem Search.Sweeps.inside {e : Formula} {w : Window} (h : s.Sweeps g e f w) {j : Job}
    (hj : j ∈ s.queue) : j.node.index < g.size :=
  h.course.elim fun _ hc => (hc.valid_accounts.1.queue j hj).node

/-- What every sweep keeps is so at the end. -/
theorem Course.sweep {order : PendingOrder} {past z : Search} {e : Formula} {w : Window}
    {P : Search → Prop} (hz : Course g order [e] past z) (hze : z.Ends g) (hf : f.isSimple = true)
    (hd : f.Evaluates g) (hw : (∅ : Window).merge w = .ok w)
    (he : (e.universal = f ∧ w = ∅) ∨ e.universal = .within f w)
    (start : P ((Search.start order).seed g e.universal))
    (step : ∀ s t, s.Sweeps g e f w → P s → Sweep g f w s t → P t) :
    Sweep.End g f w (fun s => s.Sweeps g e f w ∧ P s) z := by
  have hseed : Course g order [e] (.start order) ((Search.start order).seed g e.universal) :=
    .seed .start ⟨rfl, rfl, rfl⟩ e
  have hvalid := hseed.valid_accounts.1
  refine hze.follow (P := fun s => s.Sweeps g e f w ∧ P s) hvalid hz.moves_of_singleton
    (fun s hs => ?_) (.refl _) ⟨⟨rfl, rfl, fun j hj => ?_, order, hseed⟩, start⟩
  · rintro ⟨hsw, hp⟩
    by_cases hnil : s.queue = []
    · have hidle : s.Idle := ⟨hsw.tasks, hsw.resolved, hnil⟩
      exact .inl ⟨s, .refl s, .inl hidle, .idle hidle ⟨hsw, hp⟩⟩
    · obtain ⟨j, rest, hq⟩ := Search.exists_takes hnil
      have hnode := ((hs.valid hvalid).queue j hq.mem).node
      rcases Search.exists_sweep hsw.tasks hsw.resolved hq (hsw.queue j hq.mem) hnode hf hd hw with
        ⟨m, t, hm, hrest, hsweep⟩ | ⟨v, t, hm, hhalts, hform, hjw, hr⟩
      · refine .inr ⟨m, t, hm, hrest, ⟨?_, ?_, hsweep.swept hsw.queue, order, ?_⟩,
          step s t hsw hp hsweep⟩
        · exact hsweep.records.1.trans hsw.tasks
        · exact hsweep.records.2.trans hsw.resolved
        · exact hseed.moves (hs.trans (.step hm hrest))
      · exact .inl ⟨t, hm, .inr ⟨_, hhalts⟩, .halt ⟨hsw, hp⟩ hq.mem hform hjw hr hhalts ⟨rest, hq⟩⟩
  · obtain ⟨i, -, rfl⟩ := List.mem_map.mp hj
    exact ⟨rfl, rfl, he.imp (fun h => ⟨h.1, h.2.symm⟩) fun h => by rw [h]; rfl⟩

end CostCTL
