import CostCTL.Proofs.Likeness
import CostCTL.Proofs.Ruling

/-!
# Sessions that are shared

A session is shared by all who ask for the same key: the node, the formula and the window, and the
cost if there is a window. On its own a session comes to a result (`Checker.exists_resolve`), which is
of one kind for all first jobs with the key (`Checker.resolve_of_sessionKey_eq`), unless the cost
matters though there is no window yet: if the formula brings windows of its own, these are measured
from a cost that the key leaves out (`Checker.resolve_within_ne`).
-/

namespace CostCTL

open Formula

variable {g : Kripke} {order : PendingOrder} {s t : Search} {f : Formula} {root : Job}

/-! ### A session on its own -/

/-- A session for the key, which nobody waits for, and no other record. -/
def Store.sole (config : StoreConfig) (k : SessionKey) : Store :=
  { empty config with
    sessionKeys := ((empty config).sessionKeys.put k).2
    sessions := #[.fresh] }

/-- Do the work of a session that starts with `root`. -/
def RunM.resolve (g : Kripke) (settings : Settings) (root : Job) : RunM SessionResult := do
  spawn { root with session := some ⟨1⟩ }
  turns g settings (g.turnBound (.within root.formula root.window))
  sessionResult ⟨1⟩

/-- What the computation gives, unless it halts. -/
def RunM.value? {α : Type} (m : RunM α) (r : Run) : Option α :=
  match m r with
  | .ok a _ => some a
  | .error .. => none

/-- What a session that starts with `root` comes to if there is nothing else to do. -/
def Checker.resolve? (c : Checker) (root : Job) : Option SessionResult :=
  (RunM.resolve c.graph c.settings root).value? (.start (.sole c.store.config root.sessionKey))

/-- The search of a session on its own. -/
def Search.sole (order : PendingOrder) (root : Job) : Search :=
  { Search.start order with
    queue := [{ root with session := some ⟨1⟩ }]
    keys := [root.sessionKey]
    sessions := [⟨.pending, .empty, 1, none⟩] }

theorem RunM.value?_of_ok {α : Type} {m : RunM α} {r r' : Run} {a : α} (h : m r = .ok a r') :
    m.value? r = some a := by
  rw [value?, h]

theorem RunM.exists_spawn_sole (config : StoreConfig) (root : Job) :
    ∃ r, RunM.spawn { root with session := some ⟨1⟩ } (.start (.sole config root.sessionKey)) =
      .ok () r ∧ r.store.Sound ∧ r.view [] = .sole config.order root := by
  have hview (ts : List Task) : (Run.start (.sole config root.sessionKey)).view ts =
      { Search.start config.order with
        keys := [root.sessionKey], sessions := [.fresh], tasks := ts } := by
    simp [Run.start, Run.view, Search.start, Store.sole, Store.empty, Store.queue, Run.told,
      SeenSet.withBits, Table.toList_put, Call.told?]
    simp [Table.withBits, Table.withChains, Table.toList]
  have hsound : (Run.start (.sole config root.sessionKey)).store.Sound := by
    refine ⟨?_, ?_⟩
    · simp [Run.start, Store.sole, Store.empty]
    · exact congrArg (fun s => s.keys.length) (hview [])
  obtain ⟨r, hr, hs, hv⟩ := RunM.does_spawn (j := { root with session := some ⟨1⟩ }) hsound
    (by rw [hview]; simp [Search.result?, Search.session?, Numbered.get?])
  refine ⟨r, hr, hs, (hv []).trans ?_⟩
  rw [hview]
  rfl

namespace Search

theorem session?_sole {i : SessionId} {u : Session} (h : (sole order root).session? i = some u) :
    i = ⟨1⟩ ∧ u = ⟨.pending, .empty, 1, none⟩ := by
  obtain ⟨n, hn, hu⟩ := Numbered.get?_eq_some_iff.mp h
  obtain ⟨rfl, rfl⟩ : n = 0 ∧ _ = u := by simpa [sole, List.getElem?_singleton] using hu
  exact ⟨by cases i; simp_all, rfl⟩

theorem valid_sole (hn : root.node.index < g.size) (hlink : root.link = none) :
    (sole order root).Valid g where
  keys := rfl
  distinct := List.nodup_singleton _
  queue j hj := by
    obtain rfl := List.mem_singleton.mp hj
    exact ⟨hn, by simp [result?, session?, sole, Numbered.get?], fun i hi => by
      cases hlink.symm.trans hi⟩
  revisits i e hi := by
    obtain ⟨n, -, hn⟩ := Numbered.get?_eq_some_iff.mp hi
    cases hn
  waiters i u hi w hw := by
    obtain ⟨-, rfl⟩ := session?_sole hi
    simp at hw
  resolved i hi := by cases hi
  tasks k hk := by cases hk

theorem accounts_sole : (sole order root).Accounts where
  balance i u hi := by
    obtain ⟨rfl, rfl⟩ := session?_sole hi
    simp [work, owed, parked, sole, start]
  busy i u hi _ := by
    obtain ⟨-, rfl⟩ := session?_sole hi
    exact Nat.one_ne_zero
  unheard i u hi hne := by
    obtain ⟨-, rfl⟩ := session?_sole hi
    exact absurd rfl hne
  once := by simp [parked, heard, sole, start]
  answered p hp := by cases hp
  emptied p hp := by cases hp

/-- The first job is all the work. -/
theorem all_sole {R : Work → Prop} (hlink : root.link = none)
    (h : R (.job { root with session := some ⟨1⟩ })) : (sole order root).All 0 R where
  base_le := Nat.zero_le _
  queue j hj := by
    obtain rfl := List.mem_singleton.mp hj
    exact ⟨fun i hi => (by cases hlink.symm.trans hi), h⟩
  tasks k hk := by cases hk
  revisits i e hi := by
    obtain ⟨n, -, hn⟩ := Numbered.get?_eq_some_iff.mp hi
    cases hn
  waiters i u hi w hw := by
    obtain ⟨-, rfl⟩ := session?_sole hi
    simp at hw
  results i u hi hne := by
    obtain ⟨-, rfl⟩ := session?_sole hi
    exact absurd rfl hne
  exceeded i u x hi hx := by
    obtain ⟨-, rfl⟩ := session?_sole hi
    cases hx

theorem regular_sole (hn : root.node.index < g.size) (hlink : root.link = none)
    (hf : f.isUniversal = true) (hpart : Part f ∅ root.formula root.window) :
    (sole order root).Regular g f 0 where
  valid := valid_sole hn hlink
  accounts := accounts_sole
  inScope := all_sole hlink ⟨fun i hi => (by cases hlink.symm.trans hi),
    (root.formula, root.window), rfl, hpart.isUniversal hf, .self⟩
  reached := all_sole hlink ⟨hpart, by
    show Room f _ root.link _
    rw [hlink]
    exact hpart.height_le⟩

/-- The work takes less turns than it is given. -/
theorem potential_sole_lt (order : PendingOrder) (hn : root.node.index < g.size)
    (hpart : Part f ∅ root.formula root.window) :
    (sole order root).potential g f 0 < g.turnBound f := by
  have hstart : Course g order [] (start order) (start order) := .start
  have hbound := hstart.recordsPrice_seed ⟨rfl, rfl, rfl⟩ f
  have hopen : ((start order).openSession root ⟨1⟩).recordsPrice g f 0 + 1 ≤
      (start order).recordsPrice g f 0 :=
    recordsPrice_openSession (mem_sessionSpots hn hpart _) (by simp [start])
  have hsole : (sole order root).recordsPrice g f 0 ≤
      ((start order).openSession root ⟨1⟩).recordsPrice g f 0 :=
    recordsPrice_le rfl rfl (fun i hi => by
      obtain ⟨u, hu, -⟩ := Option.map_eq_some_iff.mp hi
      obtain ⟨rfl, -⟩ := session?_sole hu
      rfl) rfl (List.Subset.refl _)
  have hlt : g.size + _ < g.turnBound f :=
    potential_lt_pow (card_spots_le g f) (weight_le_pow g f f.height)
  have hseed : ((start order).seed g f).recordsPrice g f (start order).revisits.length =
    (start order).recordsPrice g f 0 := rfl
  rw [hseed] at hbound
  have hpotential : (sole order root).potential g f 0 =
      1 + (sole order root).recordsPrice g f 0 := by
    simp [potential, tasksPrice, waitersPrice, parked, sole, start]
  omega

end Search

/-! ### It comes to a result -/

/-- The work belongs to a session. -/
def Work.Owned : Work → Prop
  | .job j => j.session ≠ none
  | .todo c _ _ => c.session ≠ none
  | .fail session _ => session ≠ none
  | .done .. | .outcome .. => True

theorem Reaction.owned_work {c : Context} (hc : c.session ≠ none) (link : Option RevisitId)
    (o : Obligation) (reaction : Reaction) : (reaction.work c link o).Owned := by
  cases reaction with
  | proceed | fail => exact hc
  | met => trivial

theorem Work.owned_hands (g : Kripke) (base : Nat) :
    Hands g base (fun _ _ => True) (fun _ => Work.Owned) where
  mono := by
    intro s t x _ hx
    exact hx
  unfold := by
    intro s j node u _ _ _ h _ _
    cases u with
    | pass => trivial
    | fail | obligation => exact h
  spawn := by
    intro s c link o jobs _ _ _ h hj j hjm
    show j.session ≠ none
    rw [Obligation.session_jobs hj j hjm]
    exact h
  judge := by
    intro s c link o p node judgement _ _ h _ _ _
    exact Reaction.owned_work h link o _
  answer := by
    intro s c link o p i result finding _ _ h _ _ _ _ _ _ _ _
    exact Reaction.owned_work h link o _
  require := by
    intro s c link o p _ _ h _ _
    exact h
  inquire := by
    intro s c link o p _ _ _ _ _ _
    exact Option.some_ne_none _
  resume := by
    intro s c i e _ _ _ _ _ _ h _
    exact h
  exceed := by intros; trivial
  settle := by intros; trivial
  pass := by intros; trivial

/-- All work is for sessions, and finds what it looks at. -/
structure Search.Solitary (g : Kripke) (f : Formula) (s : Search) : Prop where
  regular : s.Regular g f 0
  owned : s.All 0 Work.Owned
  evaluated : s.All 0 (s.Evaluated g)

namespace Search.Solitary

theorem steady (hf : f.isUniversal = true) : Steady g (Solitary g f) where
  ready h := (Regular.steady hf).ready h.regular
  move h hm := ⟨(Regular.steady hf).move h.regular hm,
    hm.all h.regular.valid h.regular.accounts (Work.owned_hands g 0)
      (h.owned.imp fun _ _ => trivial) h.owned,
    hm.all h.regular.valid h.regular.accounts (evaluated_hands g 0)
      (h.evaluated.imp fun _ _ => trivial) h.evaluated⟩

theorem not_halts (h : s.Solitary g f) (hf : f.Reconciles ∅) (e : Halt) : ¬ s.Halts g e := by
  intro he
  cases e with
  | stop e => exact not_halts_stop h.regular.reached hf h.evaluated e he
  | refuted x =>
    cases he with
    | refuted ht => exact (h.owned.head ht _ rfl).2 rfl

end Search.Solitary

/-- The window is the one around the formula, which can be merged with its own. -/
theorem Search.solitary_sole (order : PendingOrder) (hn : root.node.index < g.size)
    (hlink : root.link = none)
    (hf : root.formula.isUniversal = true) (hw : (∅ : Window).merge root.window = .ok root.window)
    (hd : root.formula.Evaluates g) :
    (sole order root).Solitary g (.within root.formula root.window) where
  regular := regular_sole hn hlink hf (.inner .self hw)
  owned := all_sole hlink (Option.some_ne_none _)
  evaluated := all_sole hlink hd

/-- A session that can merge its windows and evaluate its atoms comes to a result. -/
theorem Checker.exists_resolve {c : Checker} (root : Job) (hl : c.settings.popLimit = none)
    (hn : root.node.index < c.graph.size) (hlink : root.link = none)
    (hf : root.formula.isUniversal = true) (hw : (∅ : Window).merge root.window = .ok root.window)
    (hr : root.formula.Reconciles root.window) (hd : root.formula.Evaluates c.graph) :
    ∃ z u, Moves c.graph (.sole c.store.config.order root) z ∧ z.Idle ∧
      z.session? ⟨1⟩ = some u ∧ u.result ≠ .pending ∧ c.resolve? root = some u.result := by
  obtain ⟨r, hspawn, hsound, hview⟩ := RunM.exists_spawn_sole c.store.config root
  have hsole := Search.solitary_sole c.store.config.order hn hlink hf hw hd
  have hsteady := Search.Solitary.steady (g := c.graph) (f := .within root.formula root.window) hf
  have hshows : r.Shows (Search.Solitary c.graph (.within root.formula root.window)) :=
    ⟨hsound, hview ▸ hsole⟩
  have hturns := hsteady.turns_result hshows hl
    (c.graph.turnBound (.within root.formula root.window))
  cases ht : RunM.turns c.graph c.settings (c.graph.turnBound (.within root.formula root.window)) r
    with
  | error e r' =>
    rw [ht] at hturns
    rcases hturns with ⟨-, r', hturns⟩ | ⟨u, hu, he⟩
    · have hle := Search.Regular.potential_turns ⟨hsound, hshows.search.regular⟩ hf hturns
      have hlt := Search.potential_sole_lt c.store.config.order hn
        (f := .within root.formula root.window) (.inner .self hw)
      rw [hview] at hle
      omega
    · exact absurd he (hu.not_halts ⟨_, hw, hr⟩ e)
  | ok a r' =>
    rw [ht] at hturns
    obtain ⟨hshows', hidle⟩ := hturns
    have hmoves := hsteady.moves_of_ok hshows ht
    rw [hview] at hmoves
    obtain ⟨result, hres, -⟩ := hmoves.extends.result (some ⟨1⟩) .pending rfl
    obtain ⟨u, hu, rfl⟩ := Option.map_eq_some_iff.mp hres
    refine ⟨r'.view [], u, hmoves, hidle, hu, ?_, ?_⟩
    · have hreg := hshows'.search.regular
      exact hreg.inScope.settled_of_idle hreg.valid hreg.accounts hidle hu
    · have hrun : RunM.resolve c.graph c.settings root
          (.start (.sole c.store.config root.sessionKey)) = .ok u.result r' := by
        rw [RunM.resolve, RunM.bind_run hspawn, RunM.bind_run ht, RunM.sessionResult_run hu]
      exact RunM.value?_of_ok hrun

/-! ### Its key decides of which kind -/

inductive SessionResult.Kind where
  | pending
  | pass
  | fail
  | exceeded
  deriving DecidableEq

def SessionResult.kind : SessionResult → Kind
  | .pending => .pending
  | .pass => .pass
  | .fail _ => .fail
  | .exceeded _ => .exceeded

theorem SessionResult.kind_eq_pending_iff {r : SessionResult} : r.kind = .pending ↔ r = .pending := by
  cases r <;> simp [kind]

theorem SessionResult.Alike.kind {r r' : SessionResult} (h : r.Alike r') : r'.kind = r.kind := by
  cases h <;> rfl

theorem Window.eq_empty_of_isEmpty {w : Window} (h : w.isEmpty = true) : w = ∅ :=
  congrArg Window.mk (SortedSet.ext (List.isEmpty_iff.mp h))

theorem Window.merge_empty {w : Window} (h : w.reconcile = .ok ()) :
    (∅ : Window).merge w = .ok w := by
  rw [merge_eq_ok_iff, w.union_empty_left]
  exact ⟨rfl, h⟩

/-- The keys of first jobs tell their contexts apart, but for the trail, and the cost of a context
without window. -/
theorem Context.eq_of_sessionKey_eq {a b : Context}
    (h : (a.inquiry f).sessionKey = (b.inquiry f).sessionKey) :
    b.node = a.node ∧ b.window = a.window ∧ (a.window ≠ ∅ → b.cost = a.cost) := by
  simp only [Job.sessionKey, inquiry, SessionKey.mk.injEq] at h
  obtain ⟨hnode, -, hwindow, hcost⟩ := h
  refine ⟨hnode.symm, hwindow.symm, fun hw => ?_⟩
  have hempty : ¬ a.window.isEmpty = true := mt Window.eq_empty_of_isEmpty hw
  simp only [relevantCost] at hcost
  rw [if_neg hempty, ← hwindow, if_neg hempty] at hcost
  exact hcost.symm

theorem Search.alike_sole {free : Prop} {a b : Context}
    (hkey : (a.inquiry f).sessionKey = (b.inquiry f).sessionKey)
    (h : b.cost = a.cost ∨ free ∧ a.window = ∅) :
    (sole order (a.inquiry f)).Alike free (sole order (b.inquiry f)) where
  order := rfl
  queue := by
    obtain ⟨hnode, hwindow, -⟩ := Context.eq_of_sessionKey_eq hkey
    refine .cons ⟨⟨hnode, hwindow, rfl, ?_⟩, rfl, rfl⟩ .nil
    exact h.imp (fun h => ⟨h, rfl⟩) fun h => ⟨h.1, h.2, fun _ => Iff.rfl⟩
  visited := rfl
  revisits := .nil
  keys := congrArg (fun k => [k]) hkey.symm
  sessions := .cons ⟨.pending, rfl, rfl, .none⟩ .nil
  resolved := rfl
  tasks := .nil

/-- A session on a formula without windows merges none. -/
theorem Search.unmerged_sole (root : Job) (hn : root.node.index < g.size)
    (hlink : root.link = none) (hu : root.formula.isUniversal = true)
    (hf : root.formula.isWindowFree = true) (hw : root.window = ∅)
    (hm : Moves g (sole order root) s) : s.Unmerged := by
  have hpart : Part root.formula ∅ root.formula root.window := by
    rw [hw]
    exact .self
  have hreg := (Regular.steady hu).moves (regular_sole hn hlink hu hpart) hm
  intro n c link e w ts ht
  cases (Part.isWindowFree (hreg.reached.head ht _ rfl).2.1 hf).1

namespace Checker

/-- A session may be shared by all who ask for its key: its result is of one kind, whatever the trail
and the cost of the one who asks first. Only without a window the cost is no part of the key, and then
the formula must not have windows of its own. -/
theorem resolve_of_sessionKey_eq {c : Checker} {a b : Context} (hl : c.settings.popLimit = none)
    (hn : a.node.index < c.graph.size) (hw : a.window.reconcile = .ok ())
    (hv : f.validateUnder a.window = .ok ()) (hd : f.IsDefinedOn c.graph)
    (hkey : (a.inquiry f.universal).sessionKey = (b.inquiry f.universal).sessionKey)
    (hfree : a.window = ∅ → f.isWindowFree = true ∨ b.cost = a.cost) :
    ∃ r r', c.resolve? (a.inquiry f.universal) = some r ∧
      c.resolve? (b.inquiry f.universal) = some r' ∧ r.kind ≠ .pending ∧ r'.kind = r.kind := by
  obtain ⟨hnode, hwindow, hcost⟩ := Context.eq_of_sessionKey_eq hkey
  have huniversal := isUniversal_universal f
  have hmerge := Window.merge_empty hw
  have hrec := (reconciles_of_validateUnder hv).universal
  have hev := hd.evaluates.universal
  obtain ⟨z, u, hz, hidle, hu, hp, hres⟩ := exists_resolve (a.inquiry f.universal) hl hn rfl
    huniversal hmerge hrec hev
  have hn' : b.node.index < c.graph.size := by rwa [hnode]
  obtain ⟨z', u', hz', hidle', hu', -, hres'⟩ := exists_resolve (b.inquiry f.universal) hl
    hn' rfl huniversal (by rwa [← hwindow] at hmerge) (by rwa [← hwindow] at hrec) hev
  -- costs are the same, or nothing asks for them
  have hcosts : b.cost = a.cost ∨ (f.isWindowFree = true ∧ a.window = ∅) ∧ a.window = ∅ := by
    by_cases hempty : a.window = ∅
    · exact (hfree hempty).symm.imp_right fun hf => ⟨⟨hf, hempty⟩, hempty⟩
    · exact .inl (hcost hempty)
  obtain ⟨z₁, hz₁, halike⟩ := hz.alike (Search.alike_sole hkey hcosts) fun hf _ hs =>
    Search.unmerged_sole (a.inquiry f.universal) hn rfl huniversal
      (isWindowFree_universal hf.1) hf.2 hs
  obtain rfl : z₁ = z' := Search.Ends.unique (.inl (halike.idle hidle)) (.inl hidle')
    (Search.valid_sole hn' rfl) hz₁ hz'
  obtain ⟨v, hv, huv⟩ := halike.session hu
  obtain rfl := Option.some.inj (hv.symm.trans hu')
  exact ⟨_, _, hres, hres', mt SessionResult.kind_eq_pending_iff.mp hp, huv.result.kind⟩

theorem resolve_of_sessionKey_eq_loop :
    let a := Context.start ⟨0⟩
    let b := { a with cost := ⟨30, 0⟩, trail := [⟨0⟩, ⟨0⟩] }
    ∃ r r', (small .loop .depthFirst).resolve? (a.inquiry (.eventually .all .falsum)) = some r ∧
      (small .loop .depthFirst).resolve? (b.inquiry (.eventually .all .falsum)) = some r' ∧
      r.kind ≠ .pending ∧ r'.kind = r.kind := by
  refine resolve_of_sessionKey_eq (f := .eventually .all .falsum) rfl (by decide) (by decide)
    (by decide) (fun x hx i node _ => ?_) (by decide) fun _ => .inl rfl
  obtain rfl : x = .const false := by simpa [atoms, falsum] using hx
  exact ⟨false, rfl⟩

/-- Where the formula has a window and the context none, one key stands for sessions that pass and for
sessions that exceed the window. -/
theorem resolve_within_ne :
    let f := Formula.within (.eventually .all (.not .falsum))
      (.ofList [⟨.time, .le, ⟨20, ⟨.time, .pico⟩⟩⟩])
    let a := Context.start ⟨0⟩
    let b := { a with cost := ⟨30, 0⟩ }
    f.validate = .ok () ∧ f.universal = f ∧
    (a.inquiry f).sessionKey = (b.inquiry f).sessionKey ∧
    ∀ order, ((small .loop order).resolve? (a.inquiry f)).map (·.kind) = some .pass ∧
      ((small .loop order).resolve? (b.inquiry f)).map (·.kind) = some .exceeded := by
  refine ⟨by decide, by decide, by decide, fun order => ?_⟩
  cases order <;> decide +kernel

end Checker

end CostCTL
