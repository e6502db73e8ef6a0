import CostCTL.Proofs.Negation
import CostCTL.Proofs.Ruling

/-!
# Graphs with a single path

On a graph with one initial node and one edge from every node there is one path, so it makes no
difference whether a formula is asked about all paths or about some path. The searches differ: asked
about some path, the dual formula is checked in a session and its result is negated. Both searches
go along the path, one job at a time, until the formula is decided (`Search.Ends.decides`), and at
every position dual formulas are ruled in opposite ways, except that both fail where the path leaves
the window (`Formula.Dual`).
-/

namespace CostCTL

open Formula

variable {g : Kripke} {s t : Search} {f e : Formula} {c d : Context}

/-- One initial node, and one edge from every node. -/
structure Kripke.IsLine (g : Kripke) (i : NodeId) : Prop where
  initial : g.initial.toList = [i]
  edge : ∀ n : NodeId, n.index < g.size → ∃ e, g.successors n = [e]

/-! ### Along the path -/

/-- What a turn on the formula comes to: a path formula over state formulas is ruled, and a state
formula is judged. -/
inductive Formula.Turns (g : Kripke) (f : Formula) (c : Context) : Ruling → Prop where
  | ruled {r : Ruling} (hf : f.isSimple = true) (h : f.Ruled g c r) : Turns g f c r
  | holds (hs : f.isState = true) (hw : c.window.verdict c.cost = .satisfied)
      (h : f.Holds g c.node) : Turns g f c .met
  | fails (hs : f.isState = true) (hw : c.window.verdict c.cost = .satisfied)
      (h : ¬ f.Holds g c.node) : Turns g f c (.fail (.unsatisfied f c.node))
  | late {x : Statement} (hs : f.isState = true) (hw : c.window.verdict c.cost = .violated x) :
    Turns g f c (.fail (.constraint x c.cost c.node))
  | early {x : Statement} (hs : f.isState = true) (hw : c.window.verdict c.cost = .notYet x) :
    Turns g f c (.fail (.unreached x c.cost c.node))

/-- Going along the path from `c`, the formula is decided at `d`. -/
inductive Decides (g : Kripke) (f : Formula) : Context → Ruling → Context → Prop where
  | here {c : Context} {r : Ruling} (h : f.Turns g c r) (hr : r ≠ .on) : Decides g f c r c
  | on {c d : Context} {r : Ruling} {e : Edge} (h : f.Turns g c .on)
      (he : g.successors c.node = [e]) (rest : Decides g f (c.follow c.leave e) r d) :
    Decides g f c r d

namespace Formula

theorem isState_of_isSimple (hf : f.isSimple = true) : f.isState = false :=
  isState_of_isOngoing (isOngoing_of_isSimple hf)

theorem Ruled.unique {r r' : Ruling} (h : f.Ruled g c r) (h' : f.Ruled g c r') : r = r' := by
  cases h <;> cases h' <;> simp_all [Window.isAhead]

theorem Turns.unique {r r' : Ruling} (h : f.Turns g c r) (h' : f.Turns g c r') : r = r' := by
  cases h with
  | ruled hf h =>
    have hs := isState_of_isSimple hf
    cases h' with
    | ruled _ h' => exact h.unique h'
    | holds hs' | fails hs' | late hs' | early hs' => simp_all
  | holds hs | fails hs | late hs | early hs =>
    cases h' with
    | ruled hf => simp [isState_of_isSimple hf] at hs
    | holds | fails | late | early => simp_all

end Formula

theorem Decides.unique {r r' : Ruling} {d' : Context} (h : Decides g f c r d)
    (h' : Decides g f c r' d') : r = r' := by
  induction h with
  | here h hr =>
    cases h' with
    | here h' => exact h.unique h'
    | on h' => exact absurd (h.unique h') hr
  | on h he _ ih =>
    cases h' with
    | here h' hr => exact absurd (h'.unique h) hr
    | on _ he' rest =>
      cases he.symm.trans he'
      exact ih rest

/-- The session does not matter for what is decided. -/
theorem Decides.withSession {r : Ruling} (h : Decides g f c r d) (session : Option SessionId) :
    Decides g f { c with session } r { d with session } := by
  have hturns {c : Context} {r : Ruling} (h : f.Turns g c r) :
      f.Turns g { c with session } r := by
    cases h with
    | ruled hf h =>
      refine .ruled hf ?_
      cases h with
      | passed hc hf => exact .passed hc hf
      | missed hc hf => exact .missed hc hf
      | early hc hw => exact .early hc hw
      | late hc hw => exact .late hc hw
      | ended hc hw he => exact .ended hc hw he
      | broken hc hw he hk => exact .broken hc hw he hk
      | kept hc hw he hk => exact .kept hc hw he hk
    | holds hs hw h => exact .holds hs hw h
    | fails hs hw h => exact .fails hs hw h
    | late hs hw => exact .late hs hw
    | early hs hw => exact .early hs hw
  induction h with
  | here h hr => exact .here (hturns h) hr
  | on h he _ ih => exact .on (hturns h) he ih

/-! ### Dual formulas -/

/-- Opposite rulings. To leave the window is a failure on both sides. -/
inductive Ruling.Opposes : Ruling → Ruling → Prop where
  | on : Opposes .on .on
  | met {v : Violation} (hv : v.isBudget = false) : Opposes .met (.fail v)
  | fail {v : Violation} (hv : v.isBudget = false) : Opposes (.fail v) .met
  | budget {v : Violation} (hv : v.isBudget = true) : Opposes (.fail v) (.fail v)

/-- Wherever a turn is taken on `f`, the turn on `e` is opposite. -/
def Formula.Dual (g : Kripke) (f e : Formula) : Prop :=
  ∀ c r, f.Turns g c r → ∃ r', r.Opposes r' ∧ e.Turns g c r'

theorem Decides.dual {r : Ruling} (hfe : f.Dual g e) (h : Decides g f c r d) :
    ∃ r', r.Opposes r' ∧ Decides g e c r' d := by
  induction h with
  | here h hr =>
    obtain ⟨r', ho, h'⟩ := hfe _ _ h
    refine ⟨r', ho, .here h' fun hon => ?_⟩
    subst hon
    cases ho
    exact hr rfl
  | on h he _ ih =>
    obtain ⟨r', ho, hrest⟩ := ih
    obtain ⟨r'', ho', h'⟩ := hfe _ _ h
    cases ho'
    exact ⟨r', ho, .on h' he hrest⟩

namespace Formula

/-- Path formulas are dual if one is ended where the other is broken, and one is an eventuality. -/
theorem dual_of_isSimple (hf : f.isSimple = true) (he : e.isSimple = true)
    (hev : e.isEventuality = !f.isEventuality)
    (hends : ∀ n, e.ends.Holds g n ↔ ¬ f.ends.Holds g n ∧ ¬ f.keeps.Holds g n)
    (hkeeps : ∀ n, e.keeps.Holds g n ↔ ¬ f.ends.Holds g n) : f.Dual g e := by
  intro c r h
  cases h with
  | ruled _ h =>
    cases h with
    | passed hc hp => exact ⟨_, .met rfl, .ruled he (.missed hc (by simp [hev, hp]))⟩
    | missed hc hp => exact ⟨_, .fail rfl, .ruled he (.passed hc (by simp [hev, hp]))⟩
    | early hc hw => exact ⟨_, .on, .ruled he (.early hc hw)⟩
    | late hc hw => exact ⟨_, .budget rfl, .ruled he (.late hc hw)⟩
    | ended hc hw hend =>
      exact ⟨_, .met rfl, .ruled he (.broken hc hw (fun h => ((hends _).mp h).1 hend)
        fun h => (hkeeps _).mp h hend)⟩
    | broken hc hw hend hk => exact ⟨_, .fail rfl, .ruled he (.ended hc hw ((hends _).mpr ⟨hend, hk⟩))⟩
    | kept hc hw hend hk =>
      exact ⟨_, .on, .ruled he (.kept hc hw (fun h => ((hends _).mp h).2 hk)
        ((hkeeps _).mpr hend))⟩
  | holds hs | fails hs | late hs | early hs => simp [isState_of_isSimple hf] at hs

theorem dual_of_isState (hf : f.isState = true) : f.Dual g (.not f) := by
  intro c r h
  have hs : (Formula.not f).isState = true := hf
  cases h with
  | ruled hf' => simp [isState_of_isSimple hf'] at hf
  | holds _ hw h => exact ⟨_, .met rfl, .fails hs hw fun hn => hn h⟩
  | fails _ hw h => exact ⟨_, .fail rfl, .holds hs hw h⟩
  | late _ hw => exact ⟨_, .budget rfl, .late hs hw⟩
  | early _ hw => exact ⟨_, .budget rfl, .early hs hw⟩

end Formula

/-! ### One job at a time -/

/-- The rest of a search that has one job of this session to do at a time. -/
structure Search.Rests (s : Search) (session : Option SessionId) : Prop where
  tasks : s.tasks = []
  resolved : s.resolved = []
  opened : s.Open session
  held : ∀ i, session = some i → ∃ u, s.session? i = some u ∧ u.outstanding ≠ 0

/-- One job gives way to another, and nothing else changes. -/
theorem Moves.spawn_one {n : Nat} {link : Option RevisitId} {o : Obligation} {j : Job}
    (ht : s.tasks = [.execute n c link o, .release c.session])
    (hj : o.jobs? g c link = some [j])
    (hs : ∀ i, c.session = some i → ∃ u, s.session? i = some u ∧ u.outstanding ≠ 0) :
    Moves g s { s with queue := s.queue ++ [j], tasks := [] } := by
  refine .step (.spawn ht hj) ?_
  cases hsession : c.session with
  | none => exact .single (.releaseNone rfl)
  | some i =>
    obtain ⟨u, hu, hout⟩ := hs i hsession
    have hu' : ((s.push (some i) [j]).withTasks [.release (some i)]).session? i =
        some { u with outstanding := u.outstanding + 1 } :=
      (s.session?_modifySession i i _).trans (by rw [if_pos rfl, hu]; rfl)
    have hsessions : Numbered.modify (Numbered.modify s.sessions
        (fun t => { t with outstanding := t.outstanding + 1 }) i.index)
        (fun t => { t with outstanding := t.outstanding - 1 }) i.index = s.sessions :=
      (Numbered.modify_modify ..).trans (Numbered.modify_id s.sessions i.index)
    refine .step (.release rfl hu' (by simp) (.inl (by simpa using hout))) ?_
    simp only [Search.release, Search.push, Search.retain, Search.modifySession, Search.withTasks,
      List.length_singleton, hsessions]
    exact .refl _

/-- A turn on a formula that is decided along the path. -/
theorem Moves.turns {j : Job} {node : Node} {ts : List Task}
    (hf : j.formula.isSimple = true ∨ j.formula.isState = true) (hd : j.formula.Evaluates g)
    (hn : g.node? j.node = some node) (ht : s.tasks = .process j :: ts) (ho : s.Open j.session)
    (hv : j.visitKey ∉ s.visited) :
    ∃ r, j.formula.Turns g j.toContext r ∧ Moves g s { s with
      visited := s.visited ++ [j.visitKey]
      tasks := r.tasks j.formula (chainBound j.link) j.toContext j.link ++
        .release j.session :: ts } := by
  rcases hf with hf | hf
  · obtain ⟨r, hr, hm⟩ := Moves.ruled hf hd hn ht ho hv
    exact ⟨r, .ruled hf hr, hm⟩
  · have hvisit (judgement : Judgement) {u : Unfolding}
        (hj : j.formula.judge (j.position node) = .ok judgement)
        (hu : (match judgement with
          | .holds => .pass
          | .fails v | .early v | .late v => .fail v) = u) : Moves g s { s with
          visited := s.visited ++ [j.visitKey]
          tasks := u.tasks j ++ .release j.session :: ts } := by
      refine .single (.visit ht ho hv hn ?_)
      rw [Formula.unfold, if_pos hf, hj, ← hu]
      cases judgement <;> rfl
    obtain ⟨b, hb⟩ := hd.isValuedOn hf _ _ hn
    have hholds := holds_iff_of_holdsAt hn hb
    have hb' : j.formula.holdsAt (j.position node).node (j.position node).id = .ok b := hb
    have hw' : (j.position node).window.verdict (j.position node).cost =
      j.window.verdict j.cost := rfl
    cases hw : j.window.verdict j.cost with
    | satisfied =>
      cases b with
      | true =>
        exact ⟨.met, .holds hf hw (hholds.mpr rfl), hvisit .holds
          (by rw [judge, hw', hw, hb']; rfl) rfl⟩
      | false =>
        exact ⟨.fail _, .fails hf hw fun h => by simpa using hholds.mp h,
          hvisit (.fails _) (by rw [judge, hw', hw, hb']; rfl) rfl⟩
    | notYet x =>
      exact ⟨.fail _, .early hf hw, hvisit (.early _) (by rw [judge, hw', hw]; rfl) rfl⟩
    | violated x => exact ⟨.fail _, .late hf hw, hvisit (.late _) (by rw [judge, hw', hw]; rfl) rfl⟩

/-- The formula was looked at only where the context came through. -/
def Fresh (f : Formula) (c : Context) (visited : List VisitKey) : Prop :=
  ∀ k ∈ visited, k.formula = f → k.inCycle = false ∧ c.Passed k.node k.cost

theorem Fresh.not_mem {visited : List VisitKey} (h : Fresh f c visited) :
    (⟨c, f, none⟩ : Job).visitKey ∉ visited := by
  intro hk
  obtain ⟨hc, hpassed⟩ := h _ hk rfl
  exact absurd (hpassed.inCycle) (by simpa [Job.visitKey] using hc)

theorem Fresh.on {visited : List VisitKey} (h : Fresh f c visited) (hr : f.Turns g c .on)
    (e : Edge) : Fresh f (c.follow c.leave e) (visited ++ [(⟨c, f, none⟩ : Job).visitKey]) := by
  have hc : c.inCycle = false := by
    cases hr with
    | ruled _ hr =>
      cases hr with
      | early hc | kept hc => exact hc
  intro k hk hf
  rcases List.mem_append.mp hk with hk | hk
  · exact ⟨(h k hk hf).1, (h k hk hf).2.follow e⟩
  · rw [List.mem_singleton.mp hk]
    exact ⟨hc, c.passed_follow e⟩

/-- A search that has only the one job to do goes along the path until the formula is decided. -/
theorem Search.Ends.decides {i : NodeId} {s₀ u : Search} (hg : g.IsLine i) (hu : u.Ends g)
    (hv : s.Valid g) (h : Moves g s u) {session : Option SessionId} (hrest : s₀.Rests session)
    (hf : f.isSimple = true ∨ f.isState = true) (hd : f.Evaluates g) (hcs : c.session = session)
    (hcn : c.node.index < g.size) {visited : List VisitKey} (hfresh : Fresh f c visited)
    (hs : Moves g s { s₀ with queue := [⟨c, f, none⟩], visited }) :
    ∃ r d visited, Decides g f c r d ∧ d.session = session ∧ Moves g s { s₀ with
      queue := [], visited, tasks := r.tasks f 0 d none ++ [.release session] } := by
  refine hu.follow (P := fun t => ∃ c' visited, t = { s₀ with queue := [⟨c', f, none⟩], visited } ∧
    c'.session = session ∧ c'.node.index < g.size ∧ Fresh f c' visited ∧
    ∀ r d, Decides g f c' r d → Decides g f c r d) (Q := fun _ => ∃ r d visited,
      Decides g f c r d ∧ d.session = session ∧ Moves g s { s₀ with
        queue := [], visited, tasks := r.tasks f 0 d none ++ [.release session] })
    hv h (fun t ht => ?_) hs
    ⟨c, visited, rfl, hcs, hcn, hfresh, fun _ _ => id⟩
  rintro ⟨c', visited, rfl, hcs', hcn', hfresh', hdec⟩
  obtain ⟨node, hnode⟩ := RunM.node?_of_lt hcn'
  obtain ⟨order, queue, v, revisits, keys, sessions, resolved, told, tasks⟩ := s₀
  obtain ⟨htasks, hresolved, hopen, hheld⟩ := hrest
  obtain rfl : tasks = [] := htasks
  obtain rfl : resolved = [] := hresolved
  obtain ⟨r, hr, hm⟩ := Moves.turns (s := ⟨order, [], visited, revisits, keys, sessions, [], told,
    [.process ⟨c', f, none⟩]⟩) (j := ⟨c', f, none⟩) hf hd hnode rfl (hcs' ▸ hopen) hfresh'.not_mem
  have htake : Move g ⟨order, [⟨c', f, none⟩], visited, revisits, keys, sessions, [], told, []⟩
      ⟨order, [], visited, revisits, keys, sessions, [], told, [.process ⟨c', f, none⟩]⟩ :=
    .take rfl rfl (Search.takes_singleton rfl)
  by_cases hon : r = .on
  · subst hon
    obtain ⟨e, he⟩ := hg.edge c'.node hcn'
    have hjobs : (Obligation.successors f).jobs? g c' none =
        some [⟨c'.follow c'.leave e, f, none⟩] := by
      rw [Obligation.jobs?, Context.spread, he]
      rfl
    exact .inr ⟨_, _, htake, hm.trans (Moves.spawn_one rfl hjobs (hcs' ▸ hheld)),
      c'.follow c'.leave e, _, rfl, hcs', Kripke.target_inside (he ▸ List.mem_singleton_self e),
      hfresh'.on hr e, fun r d hrest => hdec r d (.on hr he hrest)⟩
  · refine .inl ⟨u, hu.moves hv ht h, hu, r, c', visited ++ [Job.visitKey ⟨c', f, none⟩],
      hdec _ _ (.here hr hon), hcs', ?_⟩
    subst hcs'
    exact ht.trans (.step htake hm)

/-! ### The two searches -/

/-- The formula is decided along the path, in one way or the other. -/
def Formula.isDecided (f : Formula) : Bool := f.isSimple || f.isState

theorem Formula.ne_of_sizeOf_lt (h : sizeOf f < sizeOf e) : e ≠ f := by
  rintro rfl
  exact Nat.lt_irrefl _ h

/-- Nothing was looked at yet that is decided along the path. -/
theorem fresh_of_not_isDecided {visited : List VisitKey} (hf : f.isDecided = true)
    (h : ∀ k ∈ visited, k.formula.isDecided = false) : Fresh f c visited := by
  intro k hk hform
  have := h k hk
  rw [hform, hf] at this
  cases this

/-- A turn on a job that leaves one job. -/
theorem Moves.turn_one {s₀ : Search} {session : Option SessionId} (hrest : s₀.Rests session)
    {j j' : Job} {o : Obligation} (hjs : j.session = session) (hjn : j.node.index < g.size)
    {visited : List VisitKey} (hv : j.visitKey ∉ visited) (hs : j.formula.isState = false)
    (hu : ∀ p, j.formula.unfoldTemporal p = .obligation o)
    (hj : o.jobs? g j.toContext j.link = some [j']) :
    Moves g { s₀ with queue := [j], visited }
      { s₀ with queue := [j'], visited := visited ++ [j.visitKey] } := by
  obtain ⟨node, hnode⟩ := RunM.node?_of_lt hjn
  obtain ⟨order, queue, v, revisits, keys, sessions, resolved, told, tasks⟩ := s₀
  obtain ⟨htasks, hresolved, hopen, hheld⟩ := hrest
  obtain rfl : tasks = [] := htasks
  obtain rfl : resolved = [] := hresolved
  subst hjs
  have hunfold : j.formula.unfold (j.position node) = .ok (.obligation o) := by
    rw [Formula.unfold, hs, hu]
    rfl
  exact .step (.take rfl rfl (Search.takes_singleton rfl))
    (.step (.visit rfl hopen hv hnode hunfold) (Moves.spawn_one rfl hj hheld))

/-- A search that has only a job on `f` at `c` to do comes to a job on `e` at `d`, which is decided
along the path. -/
def ComesTo (g : Kripke) (f : Formula) (c : Context) (e : Formula) (d : Context) : Prop :=
  ∀ (s₀ : Search) (session : Option SessionId) (visited : List VisitKey), s₀.Rests session →
    (∀ k ∈ visited, k.formula.isDecided = false ∧ k.formula ≠ f) →
    ∃ visited', Fresh e { d with session } visited' ∧
      Moves g { s₀ with queue := [⟨{ c with session }, f, none⟩], visited }
        { s₀ with queue := [⟨{ d with session }, e, none⟩], visited := visited' }

theorem ComesTo.refl (hf : f.isDecided = true) (c : Context) : ComesTo g f c f c :=
  fun _ _ visited _ hv => ⟨visited, fresh_of_not_isDecided hf fun k hk => (hv k hk).1, .refl _⟩

theorem ComesTo.next {edge : Edge} (hf : f.isState = true) (hc : c.node.index < g.size)
    (he : g.successors c.node = [edge]) : ComesTo g (.next .all f) c f (c.follow ∅ edge) := by
  intro s₀ session visited hrest hv
  have hkey : Job.visitKey ⟨{ c with session }, .next .all f, none⟩ ∉ visited :=
    fun hk => (hv _ hk).2 rfl
  refine ⟨_, fresh_of_not_isDecided (by simp [isDecided, hf]) fun k hk => ?_,
    Moves.turn_one hrest (o := .step f) rfl hc hkey rfl (fun _ => rfl) ?_⟩
  · rcases List.mem_append.mp hk with hk | hk
    · exact (hv k hk).1
    · rw [List.mem_singleton.mp hk]
      rfl
  · rw [Obligation.jobs?, Context.spread, he]
    rfl

/-- An initial node, constrained to a window. -/
def Context.opening (i : NodeId) (w : Window) : Context := { Context.start i with window := w }

variable {order : PendingOrder} {i : NodeId} {w : Window}

theorem Search.rests_start (order : PendingOrder) : (Search.start order).Rests none :=
  ⟨rfl, rfl, rfl, fun _ h => by cases h⟩

theorem Kripke.IsLine.inside (hg : g.IsLine i) : i.index < g.size :=
  g.initial_inside i (by rw [SortedSet.mem_iff, hg.initial]; exact List.mem_singleton_self i)

/-- The requirement is constrained to its window first. -/
theorem moves_opening (hg : g.IsLine i) (hw : (∅ : Window).merge w = .ok w) (f : Formula) :
    Moves g ((Search.start order).seed g (.within f w)) { Search.start order with
      queue := [⟨{ Context.opening i w with session := none }, f, none⟩]
      visited := [(Job.root i (.within f w)).visitKey] } := by
  rw [Search.seed_start hg.initial]
  refine Moves.turn_one (Search.rests_start order) (j := .root i (.within f w)) rfl hg.inside
    List.not_mem_nil rfl (fun _ => rfl) ?_
  rw [Obligation.jobs?]
  simp only [Job.root, Context.start, hw]
  rfl

/-- A search that waits for one session. -/
def Search.asked (order : PendingOrder) (c : Context) (f : Formula) : Search where
  order := order
  queue := []
  visited := []
  revisits := [⟨⟨c, .here falsum, ⟨.ignored, f⟩, none⟩, false⟩]
  keys := [(c.inquiry f).sessionKey]
  sessions := [⟨.pending, Deque.empty.pushBack ⟨1⟩, 1, none⟩]
  resolved := []
  told := []
  tasks := []

theorem Search.rests_asked (order : PendingOrder) (c : Context) (f : Formula) :
    (Search.asked order c f).Rests (some ⟨1⟩) :=
  ⟨rfl, rfl, rfl, fun _ h => by cases h; exact ⟨_, rfl, by simp⟩⟩

/-- A negation asks for a session on what it negates. -/
theorem moves_asked (order : PendingOrder) (hg : g.IsLine i) (hf : f.isState = false) {visited : List VisitKey}
    (hv : Job.visitKey ⟨.opening i w, .not f, none⟩ ∉ visited) :
    Moves g { Search.start order with queue := [⟨.opening i w, .not f, none⟩], visited }
      { Search.asked order (.opening i w) f with
        queue := [⟨{ Context.opening i w with session := some ⟨1⟩ }, f, none⟩]
        visited := visited ++ [Job.visitKey ⟨.opening i w, .not f, none⟩] } := by
  obtain ⟨node, hnode⟩ := RunM.node?_of_lt hg.inside
  have hunfold : (Formula.not f).unfold ((Context.opening i w).position node) =
      .ok (.obligation (.revisit (.here falsum) ⟨.ignored, f⟩)) := by
    rw [Formula.unfold, show (Formula.not f).isState = false from hf]
    rfl
  refine .step (.take rfl rfl (Search.takes_singleton rfl)) ?_
  refine .step (.visit rfl rfl hv hnode hunfold) ?_
  refine .step (.inquire rfl hf (by simp) List.not_mem_nil) ?_
  exact .single (.releaseNone rfl)

/-- How the search for the negation ends, once its session is decided. -/
theorem exists_end_asked {r : Ruling} (hr : r ≠ .on) (hd : d.session = some ⟨1⟩)
    (visited : List VisitKey) :
    ∃ t, Moves g { Search.asked order (.opening i w) f with
        queue := [], visited, tasks := r.tasks e 0 d none ++ [.release (some ⟨1⟩)] } t ∧
      ((t.Idle ∧ ∃ v, r = .fail v ∧ v.isBudget = false) ∨
      (∃ x, t.Halts g (.refuted x)) ∧ ∀ v, r = .fail v → v.isBudget = true) := by
  obtain ⟨n, history, trail, cost, window, session⟩ := d
  obtain rfl : session = some ⟨1⟩ := hd
  cases r with
  | on => exact absurd rfl hr
  | met =>
    exact ⟨_, .step (.resumeNone rfl) (.step (.finish rfl rfl rfl rfl) (.step (.notify rfl rfl rfl)
      (.single (.tell rfl rfl rfl rfl)))), .inr ⟨⟨_, .refuted rfl⟩, fun v hv => by cases hv⟩⟩
  | fail v =>
    cases hv : v.isBudget with
    | false =>
      exact ⟨_, .step (.decide rfl hv rfl) (.step (.release rfl rfl Nat.one_ne_zero (.inr (by simp)))
        (.step (.notify rfl rfl rfl) (.step (.tell rfl rfl rfl rfl) (.step (.resumeNone rfl)
        (.single (.releaseNone rfl)))))), .inl ⟨⟨rfl, rfl, rfl⟩, v, rfl, hv⟩⟩
    | true =>
      exact ⟨_, .step (.exceed rfl hv) (.step (.finish rfl rfl rfl rfl) (.step (.notify rfl rfl rfl)
        (.single (.tell rfl rfl rfl rfl)))),
        .inr ⟨⟨_, .refuted rfl⟩, fun v' hv' => by cases hv'; exact hv⟩⟩

theorem Decides.ne_on {r : Ruling} (h : Decides g f c r d) : r ≠ .on := by
  induction h with
  | here _ hr => exact hr
  | on _ _ _ ih => exact ih

variable {past z : Search}

/-- Asked about all paths, the formula is accepted if it is met. -/
theorem Course.decides_all (hg : g.IsLine i) (hz : Course g order [e] past z) (hze : z.Ends g)
    (hw : (∅ : Window).merge w = .ok w) (he : e.universal = .within f w) {f₀ : Formula}
    (hcomes : ComesTo g f (.opening i w) f₀ c) (hf₀ : f₀.isDecided = true) (hd : f₀.Evaluates g)
    (hcn : c.node.index < g.size) :
    ∃ r d, Decides g f₀ { c with session := none } r d ∧
      ((z.Idle ∧ r = .met) ∨ (∃ x, z.Halts g (.refuted x)) ∧ r ≠ .met) := by
  have hseed : Course g order [e] (.start order) ((Search.start order).seed g e.universal) :=
    .seed .start ⟨rfl, rfl, rfl⟩ e
  have hvalid := hseed.valid_accounts.1
  have hmoves := hz.moves_of_singleton
  rw [he] at hvalid hmoves
  have hkeys : ∀ k ∈ [(Job.root i (.within f w)).visitKey],
      k.formula.isDecided = false ∧ k.formula ≠ f := by
    intro k hk
    rw [List.mem_singleton.mp hk]
    exact ⟨rfl, ne_of_sizeOf_lt (by simp only [Job.visitKey, Job.root, within.sizeOf_spec]; omega)⟩
  obtain ⟨visited, hfresh, hstart⟩ := hcomes _ none _ (Search.rests_start order) hkeys
  obtain ⟨r, d, visited', hdecides, hds, hend⟩ := hze.decides (c := { c with session := none }) hg hvalid
    hmoves (Search.rests_start order) (Bool.or_eq_true_iff.mp hf₀) hd rfl hcn hfresh
    ((moves_opening hg hw f).trans hstart)
  refine ⟨r, d, hdecides, ?_⟩
  cases r with
  | on => exact absurd rfl hdecides.ne_on
  | met =>
    have hidle : Moves g _ { Search.start order with queue := [], visited := visited' } :=
      hend.trans (.step (.resumeNone rfl) (.single (.releaseNone rfl)))
    rw [hze.unique (.inl ⟨rfl, rfl, rfl⟩) hvalid hmoves hidle]
    exact .inl ⟨⟨rfl, rfl, rfl⟩, rfl⟩
  | fail v =>
    have hhalts : Search.Halts g { Search.start order with
        queue := [], visited := visited', tasks := (Ruling.fail v).tasks f₀ 0 d none ++ [.release none] }
        (.refuted (d.counterexample v)) := .refuted (by rw [Ruling.tasks, hds]; rfl)
    rw [hze.unique (.inr ⟨_, hhalts⟩) hvalid hmoves hend]
    exact .inr ⟨⟨_, hhalts⟩, by simp⟩

/-- Asked about some path, the formula is accepted if its dual fails, and not by its window. -/
theorem Course.decides_some (hg : g.IsLine i) (hz : Course g order [e] past z) (hze : z.Ends g)
    (hw : (∅ : Window).merge w = .ok w) (he : e.universal = .within (.not f) w)
    (hf : f.isState = false) {f₀ : Formula} (hcomes : ComesTo g f (.opening i w) f₀ c)
    (hf₀ : f₀.isDecided = true) (hd : f₀.Evaluates g) (hcn : c.node.index < g.size) :
    ∃ r d, Decides g f₀ { c with session := some ⟨1⟩ } r d ∧
      ((z.Idle ∧ ∃ v, r = .fail v ∧ v.isBudget = false) ∨
      (∃ x, z.Halts g (.refuted x)) ∧ ∀ v, r = .fail v → v.isBudget = true) := by
  have hseed : Course g order [e] (.start order) ((Search.start order).seed g e.universal) :=
    .seed .start ⟨rfl, rfl, rfl⟩ e
  have hvalid := hseed.valid_accounts.1
  have hmoves := hz.moves_of_singleton
  rw [he] at hvalid hmoves
  have hnot : Job.visitKey ⟨.opening i w, .not f, none⟩ ∉
      [(Job.root i (.within (.not f) w)).visitKey] := by
    simp [Job.visitKey, Job.root]
  have hasked := (moves_opening hg hw (.not f)).trans (moves_asked order hg hf hnot)
  have hkeys : ∀ k ∈ [(Job.root i (.within (.not f) w)).visitKey] ++
      [Job.visitKey ⟨.opening i w, .not f, none⟩], k.formula.isDecided = false ∧ k.formula ≠ f := by
    intro k hk
    rcases List.mem_append.mp hk with hk | hk
    · rw [List.mem_singleton.mp hk]
      exact ⟨rfl, ne_of_sizeOf_lt (by
        simp only [Job.visitKey, Job.root, within.sizeOf_spec, not.sizeOf_spec]; omega)⟩
    · rw [List.mem_singleton.mp hk]
      exact ⟨hf, ne_of_sizeOf_lt (by simp only [Job.visitKey, not.sizeOf_spec]; omega)⟩
  obtain ⟨visited, hfresh, hstart⟩ := hcomes _ (some ⟨1⟩) _ (Search.rests_asked order _ f) hkeys
  obtain ⟨r, d, visited', hdecides, hds, hend⟩ := hze.decides (c := { c with session := some ⟨1⟩ }) hg
    hvalid hmoves (Search.rests_asked order _ f) (Bool.or_eq_true_iff.mp hf₀) hd rfl hcn hfresh
    (hasked.trans hstart)
  obtain ⟨t, ht, hresult⟩ := exists_end_asked (g := g) hdecides.ne_on hds visited'
  have hte : t.Ends g := hresult.imp And.left fun h => h.1
  rw [hze.unique hte hvalid hmoves (hend.trans ht)]
  exact ⟨r, d, hdecides, hresult⟩

namespace Checker

variable {c : Checker}

theorem validate_of_check {spec : Specification} (h : (c.check spec).1.result = .ok ()) :
    spec.validate = .ok () := by
  unfold check at h
  split at h
  · cases h
  · assumption

/-- Dual formulas in the same window: one is accepted if the negation of the other is. -/
theorem check_within_iff_of_dual {e' f f' : Formula} (f₀ f₀' : Formula) {d : Context}
    (hl : c.settings.popLimit = none) (hg : c.graph.IsLine i)
    (hv : (Formula.within e' w).validate = (Formula.within e w).validate)
    (he : e.universal = f) (he' : e'.universal = .not f') (hf' : f'.isState = false)
    (hd : e.Evaluates c.graph) (hd' : e'.Evaluates c.graph) (hd₀ : f₀.Evaluates c.graph)
    (hd₀' : f₀'.Evaluates c.graph) (hcomes : ComesTo c.graph f (.opening i w) f₀ d)
    (hcomes' : ComesTo c.graph f' (.opening i w) f₀' d) (hf₀ : f₀.isDecided = true)
    (hf₀' : f₀'.isDecided = true) (hdual : f₀.Dual c.graph f₀') (hdn : d.node.index < c.graph.size) :
    (c.check [.within e w]).1.result = .ok () ↔ (c.check [.within e' w]).1.result = .ok () := by
  by_cases hvalid : (Formula.within e w).validate = .ok ()
  · obtain ⟨past, z, hz, hze, hok⟩ := check_iff_idle hl hvalid hd
    obtain ⟨past', z', hz', hze', hok'⟩ := check_iff_idle hl (hv.trans hvalid) hd'
    obtain ⟨u, hu, -⟩ := validateUnder_within hvalid
    obtain rfl := Window.eq_of_merge_empty hu
    obtain ⟨r, d₁, hdec, hans⟩ := hz.decides_all hg hze hu (by rw [universal, he]) hcomes hf₀ hd₀ hdn
    obtain ⟨r', d₂, hdec', hans'⟩ := hz'.decides_some hg hze' hu (by rw [universal, he']) hf' hcomes'
      hf₀' hd₀' hdn
    obtain ⟨r'', hopp, hdec''⟩ := hdec.dual hdual
    obtain rfl := hdec'.unique (hdec''.withSession (some ⟨1⟩))
    rw [hok, hok']
    rcases hans with ⟨hidle, rfl⟩ | ⟨⟨x, hx⟩, hr⟩
    · refine iff_of_true hidle ?_
      cases hopp with
      | met hb =>
        refine hans'.elim And.left fun h => ?_
        rw [h.2 _ rfl] at hb
        cases hb
    · refine iff_of_false (fun hidle => hidle.not_refuted hx) fun hidle' => ?_
      obtain ⟨v, rfl, hb⟩ := hans'.elim And.right fun h => absurd h.1.choose_spec hidle'.not_refuted
      cases hopp with
      | met => exact hr rfl
      | budget hb' =>
        rw [hb] at hb'
        cases hb'
  · exact iff_of_false (fun h => hvalid (Specification.validate_of_mem (validate_of_check h)
      (List.mem_singleton_self _))) fun h => hvalid (hv.symm.trans (Specification.validate_of_mem
      (validate_of_check h) (List.mem_singleton_self _)))

theorem check_within_iff_of_isSimple {e' : Formula} (f f' : Formula) (hl : c.settings.popLimit = none)
    (hg : c.graph.IsLine i) (hv : (Formula.within e' w).validate = (Formula.within e w).validate)
    (he : e.universal = f) (he' : e'.universal = .not f') (hd : e.Evaluates c.graph)
    (hd' : e'.Evaluates c.graph) (hf : f.isSimple = true) (hf' : f'.isSimple = true)
    (hev : f'.isEventuality = !f.isEventuality)
    (hends : ∀ n, f'.ends.Holds c.graph n ↔ ¬ f.ends.Holds c.graph n ∧ ¬ f.keeps.Holds c.graph n)
    (hkeeps : ∀ n, f'.keeps.Holds c.graph n ↔ ¬ f.ends.Holds c.graph n) :
    (c.check [.within e w]).1.result = .ok () ↔ (c.check [.within e' w]).1.result = .ok () := by
  have hdec : f.isDecided = true := by rw [isDecided, hf, Bool.true_or]
  have hdec' : f'.isDecided = true := by rw [isDecided, hf', Bool.true_or]
  have hdf' : (Formula.not f').Evaluates c.graph := he' ▸ hd'.universal
  exact check_within_iff_of_dual f f' hl hg hv he he' (isState_of_isSimple hf') hd hd'
    (he ▸ hd.universal) hdf' (.refl hdec _) (.refl hdec' _) hdec hdec'
    (dual_of_isSimple hf hf' hev hends hkeeps) hg.inside

/-- On a graph with a single path, a formula about all paths and the same formula about some path get
the same answer, whatever their window and in either order. -/
theorem check_within_single (c : Checker) (i : NodeId) (p q : Formula) (w : Window)
    (hl : c.settings.popLimit = none) (hg : c.graph.IsLine i) (hp : p.isState = true)
    (hq : q.isState = true) (hdp : p.IsValuedOn c.graph) (hdq : q.IsValuedOn c.graph) :
    ∀ op ∈ [fun k => Formula.always k p, fun k => .eventually k p, fun k => .next k p,
        fun k => .strongUntil k p q, fun k => .weakUntil k p q],
      (c.check [.within (op .all) w]).1.result = .ok () ↔
        (c.check [.within (op .some) w]).1.result = .ok () := by
  have hdp := hdp.evaluates hp
  have hdq := hdq.evaluates hq
  have hup := universal_of_isState hp
  have huq := universal_of_isState hq
  have hpq : (p.isState && q.isState) = true := Bool.and_eq_true_iff.mpr ⟨hp, hq⟩
  have hqp : ((not q).isState && (neither p q).isState) = true := by
    simp [neither, isState, hp, hq]
  intro op hop
  simp only [List.mem_cons, List.not_mem_nil, or_false] at hop
  rcases hop with rfl | rfl | rfl | rfl | rfl
  · exact check_within_iff_of_isSimple (always .all p) (eventually .all (not p)) hl hg rfl
      (by rw [universal, hup]) (by rw [universal, hup]) hdp hdp hp hp rfl
      (by simp [ends, keeps, Holds, not_holds_falsum]) (by simp [ends, keeps, Holds, not_holds_falsum])
  · exact check_within_iff_of_isSimple (eventually .all p) (always .all (not p)) hl hg rfl
      (by rw [universal, hup]) (by rw [universal, hup]) hdp hdp hp hp rfl
      (by simp [ends, keeps, Holds, not_holds_falsum]) (by simp [ends, keeps, Holds])
  · obtain ⟨edge, hedge⟩ := hg.edge i hg.inside
    have hdec {e : Formula} (he : e.isState = true) : e.isDecided = true := by
      rw [isDecided, he, Bool.or_true]
    exact check_within_iff_of_dual p (not p) hl hg rfl (by rw [universal, hup])
      (by rw [universal, hup]) rfl hdp hdp hdp hdp (.next hp hg.inside hedge)
      (.next hp hg.inside hedge) (hdec hp) (hdec hp) (dual_of_isState hp)
      (Kripke.target_inside (hedge ▸ List.mem_singleton_self _))
  · exact check_within_iff_of_isSimple (strongUntil .all p q) (weakUntil .all (not q) (neither p q)) hl
      hg rfl (by rw [universal, hup, huq]) (by rw [universal, hup, huq]) ⟨hdp, hdq⟩ ⟨hdp, hdq⟩ hpq hqp
      rfl (by simp [ends, keeps, neither, Holds, and_comm]) (by simp [ends, keeps, Holds])
  · exact check_within_iff_of_isSimple (weakUntil .all p q) (strongUntil .all (not q) (neither p q)) hl
      hg rfl (by rw [universal, hup, huq]) (by rw [universal, hup, huq]) ⟨hdp, hdq⟩ ⟨hdp, hdq⟩ hpq hqp
      rfl (by simp [ends, keeps, neither, Holds, and_comm]) (by simp [ends, keeps, Holds])

/-- Some path from the single node stays there. -/
theorem check_within_single_loop :
    ((small .loop .breadthFirst).check [.within (.always .some (.not .falsum))
      (.ofList [⟨.time, .eq, ⟨0, ⟨.time, .pico⟩⟩⟩])]).1.result = .ok () := by
  have hg : Kripke.loop.IsLine ⟨0⟩ := by
    refine ⟨rfl, fun n hn => ?_⟩
    obtain ⟨n⟩ := n
    obtain rfl : n = 0 := Nat.lt_one_iff.mp hn
    exact ⟨_, rfl⟩
  have hd : (Formula.not .falsum).IsValuedOn Kripke.loop := isValuedOn_not.mpr isValuedOn_falsum
  exact (check_within_single (small .loop .breadthFirst) ⟨0⟩ (.not .falsum) (.not .falsum)
    (.ofList [⟨.time, .eq, ⟨0, ⟨.time, .pico⟩⟩⟩]) rfl hg rfl rfl hd hd
    (fun k => .always k (.not .falsum)) (by simp)).mp (by decide +kernel)

end Checker

end CostCTL
