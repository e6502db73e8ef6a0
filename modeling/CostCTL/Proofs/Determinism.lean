import CostCTL.Proofs.Iteration

/-!
# Searches are deterministic

The first task decides which moves there are, and a search has at most one (`Move.unique`). So of any
two searches that a search can come to, one comes to the other, and a search that is at its end is the
end of all.
-/

namespace CostCTL

variable {g : Kripke} {s t t' u : Search} {ts : List Task}

/-! ### What a task leads to -/

theorem Move.of_nil (h : Move g s t) (hts : s.tasks = []) :
    (∃ i rest u, s.resolved = i :: rest ∧ s.session? i = some u ∧ t = { s.dismiss i with
      resolved := rest
      told := s.told ++ [(i, u.waiters.toList)]
      tasks := u.waiters.toList.map (.tell u.result) }) ∨
    ∃ j rest, s.resolved = [] ∧ s.Takes j rest ∧
      t = { s with queue := rest, tasks := [.process j] } := by
  cases h with
  | notify _ hr hi => exact .inl ⟨_, _, _, hr, hi, rfl⟩
  | take _ hr hq => exact .inr ⟨_, _, hr, hq, rfl⟩
  | stale ht | repeated ht | visit ht | spawn ht | judge ht | require ht | inquire ht | join ht
    | answerLate ht | answer ht | resumeNone ht | resumeAgain ht | resumeLate ht | resume ht
    | tellLate ht | tell ht | exceed ht | decide ht | decideLate ht | releaseNone ht | release ht
    | finish ht => cases hts.symm.trans ht

theorem Move.of_process {j : Job} (h : Move g s t) (hts : s.tasks = .process j :: ts) :
    ((s.Settled j.session ∨ s.Open j.session ∧ j.visitKey ∈ s.visited) ∧
      t = s.withTasks (.release j.session :: ts)) ∨
    s.Open j.session ∧ j.visitKey ∉ s.visited ∧ ∃ node u, g.node? j.node = some node ∧
      j.formula.unfold (j.position node) = .ok u ∧
      t = { s with
        visited := s.visited ++ [j.visitKey]
        tasks := u.tasks j ++ .release j.session :: ts } := by
  cases h with
  | stale ht hs =>
    cases hts.symm.trans ht
    exact .inl ⟨.inl hs, rfl⟩
  | repeated ht ho hv =>
    cases hts.symm.trans ht
    exact .inl ⟨.inr ⟨ho, hv⟩, rfl⟩
  | visit ht ho hv hn hu =>
    cases hts.symm.trans ht
    exact .inr ⟨ho, hv, _, _, hn, hu, rfl⟩
  | notify ht | take ht | spawn ht | judge ht | require ht | inquire ht | join ht | answerLate ht
    | answer ht | resumeNone ht | resumeAgain ht | resumeLate ht | resume ht | tellLate ht | tell ht
    | exceed ht | decide ht | decideLate ht | releaseNone ht | release ht | finish ht =>
    cases hts.symm.trans ht

theorem Move.of_spawn {n : Nat} {c : Context} {link : Option RevisitId} {o : Obligation}
    (h : Move g s t) (hts : s.tasks = .execute n c link o :: ts) (ho : ∀ o' p, o ≠ .revisit o' p) :
    ∃ jobs, o.jobs? g c link = some jobs ∧ t = (s.push c.session jobs).withTasks ts := by
  cases h with
  | spawn ht hj =>
    cases hts.symm.trans ht
    exact ⟨_, hj, rfl⟩
  | judge ht | require ht | inquire ht | join ht | answerLate ht | answer ht =>
    cases hts.symm.trans ht
    exact absurd rfl (ho _ _)
  | notify ht | take ht | stale ht | repeated ht | visit ht | resumeNone ht | resumeAgain ht
    | resumeLate ht | resume ht | tellLate ht | tell ht | exceed ht | decide ht | decideLate ht
    | releaseNone ht | release ht | finish ht => cases hts.symm.trans ht

theorem Move.of_judge {n : Nat} {c : Context} {link : Option RevisitId} {o : Obligation}
    {p : Precondition} (h : Move g s t) (hts : s.tasks = .execute n c link (.revisit o p) :: ts)
    (hp : p.formula.isState = true) :
    ∃ node judgement, g.node? c.node = some node ∧
      p.formula.judge (c.position node) = .ok judgement ∧
      t = s.withTasks ((p.react c (.ofJudgement c judgement)).tasks n c link o ++ ts) := by
  cases h with
  | judge ht _ hn hj =>
    cases hts.symm.trans ht
    exact ⟨_, _, hn, hj, rfl⟩
  | spawn ht hj =>
    cases hts.symm.trans ht
    cases hj
  | require ht hp' | inquire ht hp' | join ht hp' | answerLate ht hp' | answer ht hp' =>
    cases hts.symm.trans ht
    cases hp.symm.trans hp'
  | notify ht | take ht | stale ht | repeated ht | visit ht | resumeNone ht | resumeAgain ht
    | resumeLate ht | resume ht | tellLate ht | tell ht | exceed ht | decide ht | decideLate ht
    | releaseNone ht | release ht | finish ht => cases hts.symm.trans ht

theorem Move.of_require {n : Nat} {c : Context} {link : Option RevisitId} {o : Obligation}
    {p : Precondition} (h : Move g s t) (hts : s.tasks = .execute n c link (.revisit o p) :: ts)
    (hp : p.formula.isState = false) (hk : p.kind = .required) :
    t = ((s.suspend ⟨c, o, p, link⟩).push c.session
      [c.demand p.formula s.nextRevisit]).withTasks ts := by
  cases h with
  | require ht =>
    cases hts.symm.trans ht
    rfl
  | spawn ht hj =>
    cases hts.symm.trans ht
    cases hj
  | judge ht hp' =>
    cases hts.symm.trans ht
    cases hp.symm.trans hp'
  | inquire ht _ hk' | join ht _ hk' | answerLate ht _ hk' | answer ht _ hk' =>
    cases hts.symm.trans ht
    exact absurd hk hk'
  | notify ht | take ht | stale ht | repeated ht | visit ht | resumeNone ht | resumeAgain ht
    | resumeLate ht | resume ht | tellLate ht | tell ht | exceed ht | decide ht | decideLate ht
    | releaseNone ht | release ht | finish ht => cases hts.symm.trans ht

theorem Move.of_ask {n : Nat} {c : Context} {link : Option RevisitId} {o : Obligation}
    {p : Precondition} (h : Move g s t) (hts : s.tasks = .execute n c link (.revisit o p) :: ts)
    (hp : p.formula.isState = false) (hk : p.kind ≠ .required) :
    ((c.inquiry p.formula).sessionKey ∉ s.keys ∧
      t = (((s.suspend ⟨c, o, p, link⟩).openSession (c.inquiry p.formula)
        s.nextRevisit).retain 1 c.session).withTasks ts) ∨
    ∃ i, s.key? i = some (c.inquiry p.formula).sessionKey ∧
      ((s.Open (some i) ∧ t = (((s.suspend ⟨c, o, p, link⟩).join i s.nextRevisit).retain 1
        c.session).withTasks ts) ∨
      (s.Settled (some i) ∧ s.Settled c.session ∧
        t = (s.suspend ⟨c, o, p, link⟩).withTasks ts) ∨
      ∃ v finding, s.session? i = some v ∧ Finding.ofResult? v.result = some finding ∧
        s.Open c.session ∧ t = (s.suspend ⟨c, o, p, link⟩).withTasks
          ((p.react c finding).tasks n c link o ++ ts)) := by
  cases h with
  | inquire ht _ _ hkey =>
    cases hts.symm.trans ht
    exact .inl ⟨hkey, rfl⟩
  | join ht _ _ hkey hi =>
    cases hts.symm.trans ht
    exact .inr ⟨_, hkey, .inl ⟨hi, rfl⟩⟩
  | answerLate ht _ _ hkey hi hs =>
    cases hts.symm.trans ht
    exact .inr ⟨_, hkey, .inr (.inl ⟨hi, hs, rfl⟩)⟩
  | answer ht _ _ hkey hi hf ho =>
    cases hts.symm.trans ht
    exact .inr ⟨_, hkey, .inr (.inr ⟨_, _, hi, hf, ho, rfl⟩)⟩
  | spawn ht hj =>
    cases hts.symm.trans ht
    cases hj
  | judge ht hp' =>
    cases hts.symm.trans ht
    cases hp.symm.trans hp'
  | require ht _ hk' =>
    cases hts.symm.trans ht
    exact absurd hk' hk
  | notify ht | take ht | stale ht | repeated ht | visit ht | resumeNone ht | resumeAgain ht
    | resumeLate ht | resume ht | tellLate ht | tell ht | exceed ht | decide ht | decideLate ht
    | releaseNone ht | release ht | finish ht => cases hts.symm.trans ht

theorem Move.of_resume {n : Nat} {c : Context} {link : Option RevisitId} (h : Move g s t)
    (hts : s.tasks = .resume n c link :: ts) :
    (link = none ∧ t = s.withTasks ts) ∨
    ∃ m i e, n = m + 1 ∧ link = some i ∧ s.record? i = some e ∧
      ((e.resumed = true ∧ t = s.withTasks ts) ∨
      (e.resumed = false ∧ s.Settled e.revisit.session ∧ t = (s.markResumed i).withTasks ts) ∨
      (e.resumed = false ∧ s.Open e.revisit.session ∧ t = (s.markResumed i).withTasks
        (.execute m e.revisit.toContext e.revisit.parent e.revisit.resume :: ts))) := by
  cases h with
  | resumeNone ht =>
    cases hts.symm.trans ht
    exact .inl ⟨rfl, rfl⟩
  | resumeAgain ht hi hr =>
    cases hts.symm.trans ht
    exact .inr ⟨_, _, _, rfl, rfl, hi, .inl ⟨hr, rfl⟩⟩
  | resumeLate ht hi hr hs =>
    cases hts.symm.trans ht
    exact .inr ⟨_, _, _, rfl, rfl, hi, .inr (.inl ⟨hr, hs, rfl⟩)⟩
  | resume ht hi hr ho =>
    cases hts.symm.trans ht
    exact .inr ⟨_, _, _, rfl, rfl, hi, .inr (.inr ⟨hr, ho, rfl⟩)⟩
  | notify ht | take ht | stale ht | repeated ht | visit ht | spawn ht | judge ht | require ht
    | inquire ht | join ht | answerLate ht | answer ht | tellLate ht | tell ht | exceed ht
    | decide ht | decideLate ht | releaseNone ht | release ht | finish ht => cases hts.symm.trans ht

theorem Move.of_tell {result : SessionResult} {i : RevisitId} (h : Move g s t)
    (hts : s.tasks = .tell result i :: ts) : ∃ e, s.record? i = some e ∧
      (((result = .pending ∨ s.Settled e.revisit.session) ∧
        t = s.withTasks (.release e.revisit.session :: ts)) ∨
      ∃ finding, Finding.ofResult? result = some finding ∧ s.Open e.revisit.session ∧
        t = s.withTasks ((e.revisit.precondition.react e.revisit.toContext finding).tasks
          (chainBound e.revisit.parent) e.revisit.toContext e.revisit.parent e.revisit.resume
            ++ .release e.revisit.session :: ts)) := by
  cases h with
  | tellLate ht hi hs =>
    cases hts.symm.trans ht
    exact ⟨_, hi, .inl ⟨hs, rfl⟩⟩
  | tell ht hi hf ho =>
    cases hts.symm.trans ht
    exact ⟨_, hi, .inr ⟨_, hf, ho, rfl⟩⟩
  | notify ht | take ht | stale ht | repeated ht | visit ht | spawn ht | judge ht | require ht
    | inquire ht | join ht | answerLate ht | answer ht | resumeNone ht | resumeAgain ht
    | resumeLate ht | resume ht | exceed ht | decide ht | decideLate ht | releaseNone ht | release ht
    | finish ht => cases hts.symm.trans ht

theorem Move.of_fail {session : Option SessionId} {x : Counterexample} (h : Move g s t)
    (hts : s.tasks = .fail session x :: ts) : ∃ i, session = some i ∧
      ((x.violation.isBudget = true ∧ t = (s.exceed i x).withTasks ts) ∨
      (x.violation.isBudget = false ∧ s.Open (some i) ∧ t = (s.complete i (.fail x)).withTasks ts) ∨
      (x.violation.isBudget = false ∧ s.Settled (some i) ∧ t = s.withTasks ts)) := by
  cases h with
  | exceed ht hx =>
    cases hts.symm.trans ht
    exact ⟨_, rfl, .inl ⟨hx, rfl⟩⟩
  | decide ht hx hi =>
    cases hts.symm.trans ht
    exact ⟨_, rfl, .inr (.inl ⟨hx, hi, rfl⟩)⟩
  | decideLate ht hx hi =>
    cases hts.symm.trans ht
    exact ⟨_, rfl, .inr (.inr ⟨hx, hi, rfl⟩)⟩
  | notify ht | take ht | stale ht | repeated ht | visit ht | spawn ht | judge ht | require ht
    | inquire ht | join ht | answerLate ht | answer ht | resumeNone ht | resumeAgain ht
    | resumeLate ht | resume ht | tellLate ht | tell ht | releaseNone ht | release ht | finish ht =>
    cases hts.symm.trans ht

theorem Move.of_release {session : Option SessionId} (h : Move g s t)
    (hts : s.tasks = .release session :: ts) :
    (session = none ∧ t = s.withTasks ts) ∨
    ∃ i v, session = some i ∧ s.session? i = some v ∧
      ((v.outstanding ≠ 0 ∧ (v.outstanding ≠ 1 ∨ v.result ≠ .pending) ∧
        t = (s.release i).withTasks ts) ∨
      (v.outstanding = 1 ∧ v.result = .pending ∧
        t = ((s.release i).complete i v.outcome).withTasks ts)) := by
  cases h with
  | releaseNone ht =>
    cases hts.symm.trans ht
    exact .inl ⟨rfl, rfl⟩
  | release ht hi hn hl =>
    cases hts.symm.trans ht
    exact .inr ⟨_, _, rfl, hi, .inl ⟨hn, hl, rfl⟩⟩
  | finish ht hi hn hr =>
    cases hts.symm.trans ht
    exact .inr ⟨_, _, rfl, hi, .inr ⟨hn, hr, rfl⟩⟩
  | notify ht | take ht | stale ht | repeated ht | visit ht | spawn ht | judge ht | require ht
    | inquire ht | join ht | answerLate ht | answer ht | resumeNone ht | resumeAgain ht
    | resumeLate ht | resume ht | tellLate ht | tell ht | exceed ht | decide ht | decideLate ht =>
    cases hts.symm.trans ht

/-! ### At most one move -/

namespace Search

theorem Settled.not_open {session : Option SessionId} (hs : s.Settled session) :
    ¬ s.Open session := by
  intro ho
  obtain ⟨result, hr, hne⟩ := hs
  exact hne (Option.some.inj (hr.symm.trans ho))

theorem settled_of_session? {i : SessionId} {v : Session} (hi : s.session? i = some v)
    (hr : v.result ≠ .pending) : s.Settled (some i) := ⟨v.result, by rw [result?, hi]; rfl, hr⟩

theorem settled_of_finding {i : SessionId} {v : Session} {finding : Finding}
    (hi : s.session? i = some v) (hf : Finding.ofResult? v.result = some finding) :
    s.Settled (some i) := by
  refine settled_of_session? hi fun hp => ?_
  rw [hp] at hf
  cases hf

theorem Takes.unique {j j' : Job} {rest rest' : List Job} (h : s.Takes j rest)
    (h' : s.Takes j' rest') : j = j' ∧ rest = rest' := by
  unfold Takes at h h'
  cases ho : s.order with
  | depthFirst =>
    rw [ho] at h h'
    obtain ⟨hrest, hj⟩ := List.append_inj' (h.symm.trans h') rfl
    exact ⟨List.head_eq_of_cons_eq hj, hrest⟩
  | breadthFirst =>
    rw [ho] at h h'
    exact List.cons_eq_cons.mp (h.symm.trans h')

theorem Takes.of_depthFirst {j : Job} {rest : List Job} (h : s.Takes j rest)
    (ho : s.order = .depthFirst) : s.queue = rest ++ [j] := by
  rw [Takes, ho] at h
  exact h

theorem Valid.key?_inj (hv : s.Valid g) {i i' : SessionId} {k : SessionKey}
    (hi : s.key? i = some k) (hi' : s.key? i' = some k) : i = i' := by
  obtain ⟨n, hn, hk⟩ := Numbered.get?_eq_some_iff.mp hi
  obtain ⟨n', hn', hk'⟩ := Numbered.get?_eq_some_iff.mp hi'
  have hlt := (List.getElem?_eq_some_iff.mp hk).1
  have := (List.getElem?_inj hlt hv.distinct).mp (hk.trans hk'.symm)
  cases i
  cases i'
  simp only at hn hn'
  rw [hn, hn', this]

end Search

open Search

theorem Move.unique_ask {n : Nat} {c : Context} {link : Option RevisitId} {o : Obligation}
    {p : Precondition} (h : Move g s t) (hv : s.Valid g)
    (hts : s.tasks = .execute n c link (.revisit o p) :: ts) (hp : p.formula.isState = false)
    (hk : p.kind ≠ .required) (h' : Move g s t') : t = t' := by
  have hmem {i : SessionId} (hi : s.key? i = some (c.inquiry p.formula).sessionKey) :
      (c.inquiry p.formula).sessionKey ∈ s.keys := Numbered.mem_of_get? hi
  rcases h.of_ask hts hp hk with ⟨hkey, rfl⟩ | ⟨i, hkey, h⟩ <;>
    rcases h'.of_ask hts hp hk with ⟨hkey', rfl⟩ | ⟨i', hkey', h'⟩
  · rfl
  · exact absurd (hmem hkey') hkey
  · exact absurd (hmem hkey) hkey'
  · cases hv.key?_inj hkey hkey'
    rcases h with ⟨ho, rfl⟩ | ⟨hs, hc, rfl⟩ | ⟨v, finding, hi, hf, hc, rfl⟩ <;>
      rcases h' with ⟨ho', rfl⟩ | ⟨hs', hc', rfl⟩ | ⟨v', finding', hi', hf', hc', rfl⟩
    · rfl
    · exact absurd ho hs'.not_open
    · exact absurd ho (settled_of_finding hi' hf').not_open
    · exact absurd ho' hs.not_open
    · rfl
    · exact absurd hc' hc.not_open
    · exact absurd ho' (settled_of_finding hi hf).not_open
    · exact absurd hc hc'.not_open
    · cases hi.symm.trans hi'
      cases hf.symm.trans hf'
      rfl

theorem Move.unique (h : Move g s t) (hv : s.Valid g) (h' : Move g s t') : t = t' := by
  cases hts : s.tasks with
  | nil =>
    rcases h.of_nil hts with ⟨i, rest, v, hr, hi, rfl⟩ | ⟨j, rest, hr, hq, rfl⟩ <;>
      rcases h'.of_nil hts with ⟨i', rest', v', hr', hi', rfl⟩ | ⟨j', rest', hr', hq', rfl⟩
    · cases hr.symm.trans hr'
      cases hi.symm.trans hi'
      rfl
    · cases hr.symm.trans hr'
    · cases hr.symm.trans hr'
    · obtain ⟨rfl, rfl⟩ := hq.unique hq'
      rfl
  | cons k ts =>
    cases k with
    | process j =>
      have hclash : (s.Settled j.session ∨ s.Open j.session ∧ j.visitKey ∈ s.visited) →
          s.Open j.session → ¬ j.visitKey ∉ s.visited :=
        fun hl ho hv => hl.elim (fun hs => hs.not_open ho) fun h => hv h.2
      rcases h.of_process hts with ⟨hl, rfl⟩ | ⟨ho, hvis, node, u, hn, hu, rfl⟩ <;>
        rcases h'.of_process hts with ⟨hl', rfl⟩ | ⟨ho', hvis', node', u', hn', hu', rfl⟩
      · rfl
      · exact absurd hvis' (hclash hl ho')
      · exact absurd hvis (hclash hl' ho)
      · cases hn.symm.trans hn'
        cases hu.symm.trans hu'
        rfl
    | execute n c link o =>
      by_cases ho : ∀ o' p, o ≠ .revisit o' p
      · obtain ⟨jobs, hj, rfl⟩ := h.of_spawn hts ho
        obtain ⟨jobs', hj', rfl⟩ := h'.of_spawn hts ho
        cases hj.symm.trans hj'
        rfl
      · obtain ⟨o, p, rfl⟩ : ∃ o' p, o = .revisit o' p := by
          cases o with
          | revisit o p => exact ⟨o, p, rfl⟩
          | here | successors | step | constrain => exact absurd (by intros; simp) ho
        cases hp : p.formula.isState with
        | true =>
          obtain ⟨node, judgement, hn, hj, rfl⟩ := h.of_judge hts hp
          obtain ⟨node', judgement', hn', hj', rfl⟩ := h'.of_judge hts hp
          cases hn.symm.trans hn'
          cases hj.symm.trans hj'
          rfl
        | false =>
          by_cases hk : p.kind = .required
          · exact (h.of_require hts hp hk).trans (h'.of_require hts hp hk).symm
          · exact h.unique_ask hv hts hp hk h'
    | resume n c link =>
      rcases h.of_resume hts with ⟨hl, rfl⟩ | ⟨m, i, e, hn, hl, hi, h⟩ <;>
        rcases h'.of_resume hts with ⟨hl', rfl⟩ | ⟨m', i', e', hn', hl', hi', h'⟩
      · rfl
      · cases hl.symm.trans hl'
      · cases hl.symm.trans hl'
      · cases hl.symm.trans hl'
        cases hi.symm.trans hi'
        cases hn.symm.trans hn'
        rcases h with ⟨hr, rfl⟩ | ⟨hr, hs, rfl⟩ | ⟨hr, ho, rfl⟩ <;>
          rcases h' with ⟨hr', rfl⟩ | ⟨hr', hs', rfl⟩ | ⟨hr', ho', rfl⟩
        all_goals first
          | rfl
          | exact absurd ho' hs.not_open
          | exact absurd ho hs'.not_open
          | cases hr.symm.trans hr'
    | tell result i =>
      obtain ⟨e, hi, h⟩ := h.of_tell hts
      obtain ⟨e', hi', h'⟩ := h'.of_tell hts
      cases hi.symm.trans hi'
      have hclash {finding : Finding} (hf : Finding.ofResult? result = some finding)
          (hl : result = .pending ∨ s.Settled e.revisit.session) :
          ¬ s.Open e.revisit.session := by
        rcases hl with rfl | hs
        · cases hf
        · exact hs.not_open
      rcases h with ⟨hl, rfl⟩ | ⟨finding, hf, ho, rfl⟩ <;>
        rcases h' with ⟨hl', rfl⟩ | ⟨finding', hf', ho', rfl⟩
      · rfl
      · exact absurd ho' (hclash hf' hl)
      · exact absurd ho (hclash hf hl')
      · cases hf.symm.trans hf'
        rfl
    | fail session x =>
      obtain ⟨i, hi, h⟩ := h.of_fail hts
      obtain ⟨i', hi', h'⟩ := h'.of_fail hts
      cases hi.symm.trans hi'
      rcases h with ⟨hx, rfl⟩ | ⟨hx, ho, rfl⟩ | ⟨hx, hs, rfl⟩ <;>
        rcases h' with ⟨hx', rfl⟩ | ⟨hx', ho', rfl⟩ | ⟨hx', hs', rfl⟩
      all_goals first
        | rfl
        | exact absurd ho' hs.not_open
        | exact absurd ho hs'.not_open
        | cases hx.symm.trans hx'
    | release session =>
      rcases h.of_release hts with ⟨hl, rfl⟩ | ⟨i, v, hl, hi, h⟩ <;>
        rcases h'.of_release hts with ⟨hl', rfl⟩ | ⟨i', v', hl', hi', h'⟩
      · rfl
      · cases hl.symm.trans hl'
      · cases hl.symm.trans hl'
      · cases hl.symm.trans hl'
        cases hi.symm.trans hi'
        rcases h with ⟨-, hn, rfl⟩ | ⟨hn, hr, rfl⟩ <;>
          rcases h' with ⟨-, hn', rfl⟩ | ⟨hn', hr', rfl⟩
        · rfl
        · exact absurd hr' (hn.resolve_left (absurd hn'))
        · exact absurd hr (hn'.resolve_left (absurd hn))
        · rfl

/-! ### Ends -/

/-- Nothing is left to do, or the requirement is refuted. -/
def Search.Ends (g : Kripke) (s : Search) : Prop := s.Idle ∨ ∃ x, s.Halts g (.refuted x)

theorem Search.Ends.not_move (h : s.Ends g) : ¬ Move g s t := by
  intro hm
  rcases h with ⟨hts, hr, hq⟩ | ⟨x, hx⟩
  · rcases hm.of_nil hts with ⟨i, rest, v, hr', -⟩ | ⟨j, rest, -, htakes, -⟩
    · cases hr.symm.trans hr'
    · have := htakes.perm
      rw [hq] at this
      cases this.nil_eq
  · cases hx with
    | refuted ht =>
      obtain ⟨i, hi, -⟩ := hm.of_fail ht
      cases hi

theorem Moves.valid (h : Moves g s t) (hv : s.Valid g) : t.Valid g := by
  induction h with
  | refl => exact hv
  | step first _ ih => exact ih (first.valid hv)

/-- Of two searches on the way, one comes to the other. -/
theorem Moves.total (h : Moves g s t) (hv : s.Valid g) (h' : Moves g s u) :
    Moves g t u ∨ Moves g u t := by
  induction h generalizing u with
  | refl => exact .inl h'
  | @step s s₁ t first rest ih =>
    cases h' with
    | refl => exact .inr (.step first rest)
    | step first' rest' =>
      cases first.unique hv first'
      exact ih (first.valid hv) rest'

/-- The end of a search is the end of all that it comes to. -/
theorem Search.Ends.moves (he : u.Ends g) (hv : s.Valid g) (h : Moves g s t) (h' : Moves g s u) :
    Moves g t u := by
  rcases h.total hv h' with h | h
  · exact h
  · cases h with
    | refl => exact .refl _
    | step first => exact absurd first he.not_move

/-- An end is the end of all that leads to it. -/
theorem Search.Ends.eq_of_moves (h : s.Ends g) (h' : Moves g s t) : t = s := by
  cases h' with
  | refl => rfl
  | step first => exact absurd first h.not_move

theorem Search.Ends.unique {z z' : Search} (h : z.Ends g) (h' : z'.Ends g) (hv : s.Valid g)
    (hz : Moves g s z) (hz' : Moves g s z') : z = z' :=
  h'.eq_of_moves (h.moves hv hz' hz)

theorem Search.Idle.not_refuted (h : s.Idle) {x : Counterexample} : ¬ s.Halts g (.refuted x)
  | .refuted ht => by cases h.1.symm.trans ht

theorem Search.Halts.refuted_unique {x y : Counterexample} (hx : s.Halts g (.refuted x))
    (hy : s.Halts g (.refuted y)) : x = y := by
  cases hx with
  | refuted ht =>
    cases hy with
    | refuted ht' =>
      cases ht.symm.trans ht'
      rfl

/-- What a search comes to can be found by going on in larger steps: from search to search with the
property `P`, each at least one move further, until an end. -/
theorem Search.Ends.follow {P Q : Search → Prop} (hu : u.Ends g) (hv : s.Valid g) (h : Moves g s u)
    (step : ∀ t, Moves g s t → P t → (∃ t', Moves g t t' ∧ t'.Ends g ∧ Q t') ∨
      ∃ m t', Move g t m ∧ Moves g m t' ∧ P t')
    (ht : Moves g s t) (hp : P t) : Q u := by
  induction h generalizing t with
  | refl s =>
    obtain rfl := hu.eq_of_moves ht
    rcases step t ht hp with ⟨t', ht', -, hq⟩ | ⟨m, -, hm, -⟩
    · rw [← hu.eq_of_moves ht']
      exact hq
    · exact absurd hm hu.not_move
  | @step s s₁ u first rest ih =>
    have step' : ∀ t, Moves g s₁ t → P t → (∃ t', Moves g t t' ∧ t'.Ends g ∧ Q t') ∨
        ∃ m t', Move g t m ∧ Moves g m t' ∧ P t' := fun t h₁ => step t (.step first h₁)
    cases ht with
    | refl =>
      rcases step s (.refl s) hp with ⟨t', ht', hend, hq⟩ | ⟨m, t', hm, hrest, hp'⟩
      · rw [hend.eq_of_moves (hu.moves hv ht' (.step first rest))]
        exact hq
      · obtain rfl := hm.unique hv first
        exact ih hu (first.valid hv) step' hrest hp'
    | @step _ m _ hm hrest =>
      obtain rfl := hm.unique hv first
      exact ih hu (first.valid hv) step' hrest hp

/-- What follows from all that comes later holds on the whole way to an end. -/
theorem Search.Ends.induction {P : Search → Prop} (hu : u.Ends g) (hv : s.Valid g)
    (h : Moves g s u)
    (step : ∀ t, Moves g t u → (∀ m t', Move g t m → Moves g m t' → Moves g t' u → P t') → P t) :
    P s := by
  suffices main : ∀ t, Moves g s t → Moves g t u → P t from main s (.refl s) h
  induction h with
  | refl =>
    intro t ht htu
    obtain rfl := hu.eq_of_moves ht
    exact step t htu fun m _ hm => absurd hm hu.not_move
  | @step s s₁ u first rest ih =>
    have ih := ih hu (first.valid hv) step
    intro t ht htu
    cases ht with
    | refl => exact step s htu fun m t' hm hmt => ih t' (hm.unique hv first ▸ hmt)
    | @step _ m _ hm hmt => exact ih t (hm.unique hv first ▸ hmt) htu

/-! ### From requirement to requirement -/

/-- The search for the latest requirement starts where the searches for the others ended. -/
theorem Course.of_cons {order : PendingOrder} {f : Formula} {fs : List Formula} {past : Search}
    (h : Course g order (f :: fs) past s) :
    past.Idle ∧ (∃ before, Course g order fs before past) ∧
      Moves g (past.seed g f.universal) s := by
  generalize hfs : f :: fs = es at h
  induction h with
  | start => cases hfs
  | seed before hs =>
    cases hfs
    exact ⟨hs, ⟨_, before⟩, .refl _⟩
  | move _ hm ih =>
    obtain ⟨hs, before, hmoves⟩ := ih hfs
    exact ⟨hs, before, hmoves.trans (.single hm)⟩

theorem Course.moves_of_singleton {order : PendingOrder} {f : Formula} {past : Search}
    (h : Course g order [f] past s) :
    Moves g ((Search.start order).seed g f.universal) s := by
  obtain ⟨-, ⟨_, before⟩, hmoves⟩ := h.of_cons
  obtain ⟨-, rfl⟩ := before.eq_start
  exact hmoves

end CostCTL
