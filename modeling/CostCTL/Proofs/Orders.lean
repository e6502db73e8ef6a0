import CostCTL.Proofs.Exact
import CostCTL.Proofs.Pending

/-!
# The order of jobs

Where formulas are paced, no visit waits for a cycle to be closed. Once no work is left for a
session all its visits are finished (`Search.Concludes.finished`). That is shown by induction on
their formulas, and not on the order of jobs as in a search that goes depth first. So the sessions
that pass are right to (`Course.honest`), and the check comes to the same answer in any order
(`Checker.check_of_orders`).
-/

namespace CostCTL

open Formula

variable {g : Kripke} {s t : Search} {f : Formula} {fs : List Formula} {exempt : Bool}
  {session : Option SessionId} {link : Option RevisitId}

theorem Obligation.formula_jobs {c : Context} {o : Obligation} {jobs : List Job}
    (hj : o.jobs? g c link = some jobs) : ∀ j ∈ jobs, j.formula = o.target := by
  intro j hjm
  cases o with
  | here e =>
    cases hj
    obtain rfl := List.mem_singleton.mp hjm
    rfl
  | successors e | step e =>
    cases hj
    obtain ⟨d, -, rfl⟩ := List.mem_map.mp hjm
    rfl
  | constrain e w =>
    rw [jobs?] at hj
    split at hj
    · cases hj
      obtain rfl := List.mem_singleton.mp hjm
      rfl
    · cases hj
  | revisit => cases hj

namespace Search

/-- What is asked of work depends on its link, unless it is exempt. -/
theorem paceOf_of_alone (h : paceOf exempt session none = .alone) (link : Option RevisitId) :
    paceOf exempt session link = if link.isSome then .linked else .alone := by
  unfold paceOf at h ⊢
  split
  · next hfree =>
    rw [if_pos hfree] at h
    cases h
  · rfl

/-- An obligation that was heeded is met, if the visits of smaller formulas are finished. -/
theorem Heeded.served {c : Context} {o : Obligation} (hc : t.Concludes g exempt fs session t)
    (hopen : t.Open session) (hses : c.session = session) (hw : c.window = ∅)
    (hnode : c.node.index < g.size)
    (hsmall : ∀ k ∈ t.visited, k.session = session → k.formula.size < f.size → t.Finished g k)
    (hfits : o.Fits (f, ∅) ∅) (hpaced : o.isPaced (paceOf exempt session link) = true)
    (htarget : link ≠ none → o.target.size < f.size) (h : t.Heeded g c link o) :
    t.Resumed link ∧ t.Met g c link o := by
  have hfail : ¬ t.Failed session := fun hf => hf.not_open hopen
  have hjobs {o : Obligation} {jobs : List Job} (hj : o.jobs? g c link = some jobs)
      (hvis : ∀ j ∈ jobs, j.visitKey ∈ t.visited) (htarget : link ≠ none → o.target.size < f.size) :
      t.Resumed link := by
    intro i hi
    obtain ⟨j, hjm⟩ := List.exists_mem_of_ne_nil _ (Obligation.jobs_ne_nil hnode hj)
    have hsession : j.visitKey.session = session := (Obligation.session_jobs hj j hjm).trans hses
    have hsize : j.visitKey.formula.size < f.size := by
      rw [show j.visitKey.formula = o.target from Obligation.formula_jobs hj j hjm]
      exact htarget (by simp [hi])
    obtain ⟨hres, -⟩ := (hsmall _ (hvis j hjm) hsession hsize).resolve_left (hsession ▸ hfail)
    exact hres i ((Obligation.link_jobs hj j hjm).trans hi)
  induction o with
  | here e | successors e | step e => exact ⟨hjobs rfl (h _ rfl) htarget, h⟩
  | constrain => cases hpaced
  | revisit o p ih =>
    obtain ⟨hpart, hsize, hgo⟩ := hfits
    unfold Heeded at h
    unfold Met
    unfold Obligation.isPaced at hpaced
    cases hk : p.kind with
    | required =>
      simp only [hk, Bool.and_eq_true] at h hpaced ⊢
      have hrest := ih (hgo.resolve_left (by simp [hk])) hpaced.2 htarget
      rcases h with ⟨hholds, h⟩ | ⟨i, b, hrec, hkey⟩
      · exact ⟨(hrest h).1, hholds, (hrest h).2⟩
      · rw [Job.visitKey_eq (by exact hw)] at hkey
        have hfin {k : VisitKey} (hk : k ∈ t.visited) (hf : k.formula = p.formula)
            (hs : k.session = c.session) : t.Finished g k :=
          hsmall k hk (hs.trans hses) (hf ▸ hsize)
        have hfail' : ¬ t.Failed c.session := hses ▸ hfail
        -- what was required is finished, so the revisit was resumed and went on
        obtain ⟨e, he, hr⟩ := ((hfin hkey rfl rfl).resolve_left hfail').1 i rfl
        obtain rfl := Option.some.inj (hrec.symm.trans he)
        obtain ⟨hres, hmet⟩ := hrest (hc.resumed i _ hrec hr hses)
        exact ⟨hres, holds_of_finished hkey rfl (fun k hk hf _ hs => hfin hk hf hs) hfail', hmet⟩
    | skip =>
      simp only [hk, Bool.and_eq_true] at h hpaced ⊢
      have hrest := ih (hgo.resolve_left (by simp [hk])) hpaced.2 htarget
      rcases h with ⟨hholds, hres⟩ | h
      · exact ⟨hres, .inl hholds⟩
      · exact ⟨(hrest h).1, .inr (hrest h).2⟩
    | ignored =>
      simp only [hk] at h ⊢
      exact ⟨h.2, h.1⟩

/-- All visits for an open session are finished once they are answered. -/
theorem Concludes.finished (hc : t.Concludes g exempt fs session t) (hopen : t.Open session)
    (halone : paceOf exempt session none = .alone) {k : VisitKey} (hk : k ∈ t.visited)
    (hses : k.session = session) : t.Finished g k := by
  -- a visit needs those of smaller formulas, and otherwise only that its successors are visited
  induction hn : k.formula.size using Nat.strongRecOn generalizing k with
  | ind n ih =>
    cases hc.visited k hk hses with
    | @of_job j node v plain paced marked hnode hv answered =>
      have hses : j.session = session := hses
      have hpace := paceOf_of_alone halone j.link
      rw [Work.Paced, hses] at paced
      have hsmall (k : VisitKey) (hk : k ∈ t.visited) (hs : k.session = session)
          (hlt : k.formula.size < j.formula.size) : t.Finished g k := ih _ (hn ▸ hlt) hk hs rfl
      refine (finished_of_served plain hnode hv hk marked (fun hfail => ⟨fun e i he hkey => ?_,
        fun hev => ?_⟩) ?_).1
      · exact holds_of_finished hkey rfl (fun k hk hf _ hs => hsmall k hk (hs.trans hses)
          (by rw [hf]; exact he)) hfail
      · cases hev.symm.trans (isEventuality_of_isPaced paced (by rw [hpace]; split <;> simp))
      · cases v with
        | pass => exact .inr answered
        | fail => exact absurd answered id
        | obligation o =>
          have hu := (unfoldTemporal_of_unfold hv).2
          have hfits : o.Fits (j.formula, ∅) ∅ := fits_unfoldTemporal .self plain.isUniversal hu
          refine .inr (Heeded.served hc hopen hses plain.window
            (Array.getElem?_eq_some_iff.mp hnode).1 hsmall hfits (isPaced_unfoldTemporal paced hu)
            (fun hlink => ?_) answered)
          rcases unfoldTemporal_target plain.isUniversal plain.window plain.isWindowFree hu with
            ⟨hongoing, -⟩ | ⟨-, hsize, -⟩
          · rw [hpace, if_pos (Option.isSome_iff_ne_none.mpr hlink)] at paced
            cases hongoing.symm.trans (isOngoing_of_isPaced paced)
          · exact hsize

theorem Concludes.holds (hc : t.Concludes g exempt fs session t) (hopen : t.Open session)
    (halone : paceOf exempt session none = .alone) {k : VisitKey} (hk : k ∈ t.visited)
    (hses : k.session = session) (hcycle : k.inCycle = false) : k.formula.Holds g k.node :=
  holds_of_finished hk hcycle
    (fun _ hk' _ _ hs => hc.finished hopen halone hk' (hs.trans hses))
    fun hf => hf.not_open (hses ▸ hopen)

end Search

/-! ### Sessions -/

/-- Sessions pass one at a time, when nothing is left to do for them. -/
theorem Move.pass_cases (h : Move g s t) (hv : s.Valid g) {i : SessionId}
    (hi : t.result? (some i) = some .pass) : s.result? (some i) = some .pass ∨
      ∃ v ts, s.tasks = .release (some i) :: ts ∧ s.session? i = some v ∧ v.outstanding = 1 ∧
        v.result = .pending := by
  cases h with
  | notify => exact .inl ((s.result?_dismiss _ _).symm.trans hi)
  | spawn => exact .inl ((s.result?_push _ _ _).symm.trans hi)
  | @require n c link o p =>
    exact .inl (((s.suspend ⟨c, o, p, link⟩).result?_push c.session [_] (some i)).symm.trans hi)
  | @inquire n c link o p =>
    have hi := (Search.result?_retain ((s.suspend ⟨c, o, p, link⟩).openSession
      (c.inquiry p.formula) s.nextRevisit) 1 c.session (some i)).symm.trans hi
    refine .inl (((Search.result?_openSession_eq_some (s := s.suspend _) hv.keys).mp
      hi).resolve_right fun ⟨_, hpass⟩ => by cases hpass)
  | @join n c link o p ts k =>
    have hi := (Search.result?_retain ((s.suspend ⟨c, o, p, link⟩).join k s.nextRevisit) 1
      c.session (some i)).symm.trans hi
    exact .inl (((s.suspend _).result?_join _ _ _).symm.trans hi)
  | exceed => exact .inl ((s.result?_exceed _ _ _).symm.trans hi)
  | @decide k y ts _ _ hopen =>
    have hi := (s.result?_complete hopen (.fail y) (some i)).symm.trans hi
    split at hi
    · cases hi
    · exact .inl hi
  | release => exact .inl ((s.result?_release _ _).symm.trans hi)
  | @finish k ts v ht hk hn hr =>
    have hopen : (s.release k).Open (some k) := by
      rw [Search.Open, Search.result?_release, Search.result?, hk, Option.map_some, hr]
    have hi := ((s.release k).result?_complete hopen v.outcome (some i)).symm.trans hi
    split at hi
    · next heq =>
      cases heq
      exact .inr ⟨v, ts, ht, hk, hn, hr⟩
    · exact .inl ((s.result?_release _ _).symm.trans hi)
  | take | stale | repeated | visit | judge | answerLate | answer | resumeNone | resumeAgain
    | resumeLate | resume | tellLate | tell | decideLate | releaseNone => exact .inl hi

/-- When the last work of a session is released, none is left. -/
theorem Search.Accounts.not_has (ha : s.Accounts) (hord : Task.Orderly s.tasks) {i : SessionId}
    {v : Session} {ts : List Task} {x : Work} (ht : s.tasks = .release (some i) :: ts)
    (hi : s.session? i = some v) (hn : v.outstanding = 1) (hx : s.Has x) :
    x.session ≠ some i := by
  have hbalance := ha.balance i v hi
  have howed : s.owed i = (ts.countP (·.releases s = some i)) + 1 := by
    simp [Search.owed, ht, Task.releases]
  have hwork : s.work i = 0 := by omega
  have hts : ts.countP (·.releases s = some i) = 0 := by omega
  obtain ⟨hqueue, hparked⟩ := Nat.add_eq_zero_iff.mp hwork
  intro hses
  cases hx with
  | job hj => exact List.countP_eq_zero.mp hqueue _ hj (by simpa [Work.session] using hses)
  | @task k _ hk hx =>
    rw [ht] at hord hk
    rcases List.mem_cons.mp hk with rfl | hk
    · cases hx
    · have htell := hord.tail_release k hk
      cases k with
      | tell result w =>
        obtain ⟨e, he, rfl⟩ := Option.map_eq_some_iff.mp hx
        refine List.countP_eq_zero.mp hts _ hk ?_
        rw [Task.releases, Search.owner?, he]
        exact decide_eq_true hses
      | process | execute | resume | fail | release => cases htell
  | @waiter w e hw he =>
    refine List.countP_eq_zero.mp hparked w hw ?_
    rw [Search.owner?, he]
    exact decide_eq_true hses

section Course

variable {order : PendingOrder} {past : Search}

/-- Whatever the order, sessions on paced formulas are right to pass. -/
theorem Course.honest (exempt : Bool) (h : Course g order fs past s)
    (hw : ∀ f ∈ fs, f.isWindowFree = true)
    (hp : ∀ f ∈ fs, f.universal.isPaced (paceOf exempt none none) = true) : s.Honest g := by
  induction h with
  | start =>
    intro i k hk
    obtain ⟨n, -, hn⟩ := Numbered.get?_eq_some_iff.mp hk
    cases hn
  | seed _ _ _ ih =>
    exact ih (fun e he => hw e (List.mem_cons_of_mem _ he))
      fun e he => hp e (List.mem_cons_of_mem _ he)
  | @move fs past s t before hm ih =>
    have hhonest := ih hw hp
    obtain ⟨hv, ha⟩ := before.valid_accounts
    intro i k hk hr
    rcases hm.pass_cases hv hr with hr | ⟨v, ts, ht, hi, hn, hpend⟩
    · obtain ⟨k', hk'⟩ := hv.key?_of_result? (i := i) (by rw [hr]; simp)
      obtain rfl := Option.some.inj (hk.symm.trans (hm.extends.key i k' hk'))
      exact hhonest i k hk' hr
    · have hopen : s.Open (some i) := by
        rw [Search.Open, Search.result?, hi, Option.map_some, hpend]
      obtain ⟨k', hk'⟩ := hv.key?_of_result? (i := i) (by rw [hopen]; simp)
      obtain rfl := Option.some.inj (hk.symm.trans (hm.extends.key i k' hk'))
      -- the session passes now, and so no work is left for it
      have hc := before.tends exempt hw hp s (some i) (.refl s) hhonest hopen fun x hx hses =>
        absurd hses (ha.not_has before.orderly ht hi hn hx)
      exact hc.holds hopen (paceOf_session exempt i) (hc.opened i k rfl hk') rfl rfl

/-- Whatever the order, paced requirements hold when nothing is left to do. -/
theorem Course.holds_of_idle (h : Course g order fs past s) (hs : s.Idle)
    (hw : ∀ f ∈ fs, f.isWindowFree = true) (hp : ∀ f ∈ fs, f.universal.isPaced .alone = true) :
    ∀ f ∈ fs, ∀ i ∈ g.initial, f.Holds g i := by
  intro f hf i hi
  have hopen : s.Open none := rfl
  have hc := h.tends false hw hp s none (.refl s) (h.honest false hw hp) hopen fun x hx _ => by
      obtain ⟨hv, ha⟩ := h.valid_accounts
      cases hx with
      | job hj =>
        rw [hs.2.2] at hj
        cases hj
      | task hk =>
        rw [hs.1] at hk
        cases hk
      | waiter hw =>
        rw [h.inScope.parked_of_idle hv ha hs] at hw
        cases hw
  exact (holds_universal f i).mp (hc.holds hopen rfl (hc.roots rfl f hf i hi) rfl rfl)

end Course

/-! ### Checks -/

namespace Checker

/-- The order in which jobs are taken may matter to a check. If every session is on a paced formula,
what is accepted depth first is accepted in any order. If the requirements are paced themselves,
checks in any order agree on the requirement that does not hold, if there is one. -/
theorem check_of_orders (c c' : Checker) (spec : Specification) (hg : c'.graph = c.graph)
    (hl : c.settings.popLimit = none) (hl' : c'.settings.popLimit = none)
    (ho : c.store.config.order = .depthFirst) (hv : spec.validate = .ok ())
    (hw : ∀ f ∈ spec, f.isWindowFree = true) (hd : ∀ f ∈ spec, f.IsDefinedOn c.graph) :
    ((∀ f ∈ spec, f.universal.isPaced .free = true) →
      (c.check spec).1.result = .ok () → (c'.check spec).1.result = .ok ()) ∧
    ((∀ f ∈ spec, f.universal.isPaced .alone = true) →
      ((c.check spec).1.result = .ok () ∧ (c'.check spec).1.result = .ok ()) ∨
      ∃ k f x x', (c.check spec).1.result = .error (.error (.unsatisfied k f x)) ∧
        (c'.check spec).1.result = .error (.error (.unsatisfied k f x'))) := by
  have hjudged := judged_of_depthFirst hl ho hv hw hd
  rw [← hg] at hjudged hd
  refine ⟨fun hp hok => ?_, fun hp => ?_⟩
  · cases h : (c'.check spec).1.result with
    | ok => rfl
    | error e =>
      obtain ⟨k, f, x, past, u, hf, rfl, hc, hx⟩ :=
        exists_of_check_error_of_evaluates hl' hv (fun f hf => (hd f hf).evaluates) h
      have hsub : f :: (spec.take k).reverse ⊆ spec := List.cons_subset.mpr
        ⟨List.mem_of_getElem? hf, fun e he => List.mem_of_mem_take (List.mem_reverse.mp he)⟩
      obtain ⟨i, hi, hnot⟩ := hc.not_holds_of_refuted hx (hc.honest true
        (fun f hf => hw f (hsub hf)) fun f hf => hp f (hsub hf)) fun f hf => hw f (hsub hf)
      rcases hjudged with ⟨-, hall⟩ | ⟨_, _, _, -, -, -, herr⟩
      · exact absurd (hall f (List.mem_of_getElem? hf) i hi) hnot
      · cases hok.symm.trans herr
  · refine hjudged.agree (judged_of_course hl' hv hd (fun hsub hc hs => ?_) fun hsub hc hx => ?_)
    · exact hc.holds_of_idle hs (fun f hf => hw f (hsub hf)) fun f hf => hp f (hsub hf)
    · exact hc.not_holds_of_refuted hx (hc.honest false (fun f hf => hw f (hsub hf))
        fun f hf => hp f (hsub hf)) fun f hf => hw f (hsub hf)

end Checker

/-- Two ways into a cycle of two nodes. -/
def Kripke.crossing : Kripke where
  nodes := .replicate 3 ⟨⟨∅, false, "", ""⟩, .read⟩
  edges := #[[⟨⟨1⟩, .zero⟩, ⟨⟨2⟩, .zero⟩], [⟨⟨2⟩, .zero⟩], [⟨⟨1⟩, .zero⟩]]
  initial := (∅ : SortedSet NodeId).insert ⟨0⟩
  size_edges := rfl
  total := by simp
  inside := by simp
  initial_nonempty := toList_insert_first
  initial_inside := by decide

namespace Checker

theorem check_of_orders_crossing :
    ((small .crossing .breadthFirst).check
      [.not (.eventually .some .falsum), .always .all (.next .all .falsum)]).1.result ≠ .ok () := by
  have h := (check_of_orders (small .crossing .depthFirst) (small .crossing .breadthFirst)
    [.not (.eventually .some .falsum), .always .all (.next .all .falsum)] rfl rfl rfl rfl
    (by decide) (by decide) fun f hf a ha i node _ => by
      obtain rfl : a = .const false := by
        rcases List.mem_pair.mp hf with rfl | rfl <;> simpa [atoms, falsum] using ha
      exact ⟨false, rfl⟩).2 (by decide)
  rcases h with ⟨hok, -⟩ | ⟨k, f, x, x', -, herr⟩
  · revert hok
    decide +kernel
  · rw [herr]
    simp

/-- Breadth first, both nodes of the cycle are visited before either comes to the other, and the
cycle is never closed. So an eventuality is taken to be met that is not, and its negation is
refused. -/
theorem check_crossing_ne :
    let f := Formula.eventually .all .falsum
    f.validate = .ok () ∧ f.isWindowFree = true ∧ f.IsDefinedOn .crossing ∧
    ((small .crossing .depthFirst).check [f]).1.result ≠ .ok () ∧
    ((small .crossing .breadthFirst).check [f]).1.result = .ok () ∧
    ((small .crossing .depthFirst).check [.not f]).1.result = .ok () ∧
    ((small .crossing .breadthFirst).check [.not f]).1.result ≠ .ok () := by
  intro f
  refine ⟨by decide, by decide, fun a ha i node _ => ?_, by decide +kernel, by decide +kernel,
    by decide +kernel, by decide +kernel⟩
  obtain rfl : a = .const false := by simpa [f, atoms, falsum] using ha
  exact ⟨false, rfl⟩

end Checker

end CostCTL
