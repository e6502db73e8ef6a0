import CostCTL.Kripke.Ringlet
import Mathlib.Tactic.ByContra

/-!
# The graph that ringlets describe

What ringlets describe is said without numbers and passes: which snapshots there are, which steps
lead from one to another, and which snapshots continue which (`Ringlet.Describes`). The graph made
of ringlets is that one. It is missing for three reasons only, the first of which counts: a
snapshot after a step that nothing continues, a snapshot to start from that no step starts from,
and no snapshot to start from (`Ringlet.outcome_graph`).
-/

namespace CostCTL

/-! ### Graphs of given parts -/

namespace Kripke

variable {nodes : Array Node} {edges : Array (List Edge)} {initial : SortedSet NodeId}

/-- If nothing is wrong with the edges, the initial nodes decide. -/
theorem fault?_eq_initialFault? (hsize : edges.size = nodes.size)
    (hrows : ∀ out ∈ edges, out ≠ [] ∧ ∀ e ∈ out, e.target.index < nodes.size) :
    fault? nodes edges initial = initialFault? nodes.size initial := by
  rw [fault?, if_neg (not_not_intro hsize)]
  split
  · next e he =>
    obtain ⟨x, hx, hfault⟩ := List.exists_of_findSome?_eq_some he
    obtain ⟨hne, hin⟩ := hrows x.1 (Array.mem_def.mpr (List.fst_mem_of_mem_zipIdx hx))
    have hnone : edgesFault? nodes.size ⟨x.2⟩ x.1 = none := by
      rw [edgesFault?, if_neg (by simpa using hne), Option.map_eq_none_iff, List.find?_eq_none]
      simpa using hin
    cases hnone.symm.trans hfault
  · rfl

theorem ofParts_of_fault? {e : GraphError} (h : fault? nodes edges initial = some e) :
    ofParts nodes edges initial = .error e := by
  rw [ofParts]
  split
  · next h' => rw [Option.some.inj (h'.symm.trans h)]
  · next h' => cases h'.symm.trans h

theorem exists_ofParts (h : fault? nodes edges initial = none) :
    ∃ g, ofParts nodes edges initial = .ok g ∧ g.nodes = nodes ∧ g.edges = edges ∧
      g.initial = initial := by
  rw [ofParts]
  split
  · next h' => cases h'.symm.trans h
  · split
    split
    exact ⟨_, rfl, rfl, rfl, rfl⟩

end Kripke

namespace Ringlet

/-! ### What is described -/

/-- `q` rests where `p` goes, it has just entered exactly if `p` changes the control state, and
both have one value for each variable that both record. -/
structure Continues (p q : Node) : Prop where
  current : q.current = p.target
  entry : q.entry = true ↔ p.target ≠ p.current
  vars : ∀ name v w, p.var? name = some v → q.var? name = some w → v = w

theorem continues_iff {p q : Node} : continues p q = true ↔ Continues p q := by
  have hentry : (q.entry == (p.target != p.current)) = true ↔
      (q.entry = true ↔ p.target ≠ p.current) := by
    cases q.entry <;> simp
  rw [continues, Bool.and_eq_true, Bool.and_eq_true, hentry, beq_iff_eq, List.all_eq_true]
  constructor
  · rintro ⟨⟨hcurrent, hentry⟩, hvars⟩
    refine ⟨hcurrent, hentry, fun name v w hv hw => ?_⟩
    have hall : (q.var? name).all (· == v) = true :=
      hvars (name, v) (SortedMap.get?_eq_some_iff.mp hv)
    rw [hw, Option.all_some, beq_iff_eq] at hall
    exact hall.symm
  · intro h
    refine ⟨⟨h.current, h.entry⟩, fun x hx => ?_⟩
    have hv : p.var? x.1 = some x.2 := SortedMap.get?_eq_some_iff.mpr hx
    change (q.var? x.1).all (· == x.2) = true
    cases hw : q.var? x.1 with
    | none => rfl
    | some w => rw [Option.all_some, beq_iff_eq, h.vars x.1 x.2 w hv hw]

/-- The graph is the one that the ringlets describe. -/
structure Describes (ringlets : List Ringlet) (initial : List Snapshot) (g : Kripke) : Prop where
  /-- the snapshots, each once, in the order of their first occurrence -/
  nodes : g.nodes.toList = (ringlets.flatMap fun r => [r.readNode, r.writeNode]).eraseDups
  step : ∀ i n, g.node? i = some n → n.kind = .read → ∃ out, g.successors? i = some out ∧
    out.Nodup ∧ ∀ e, e ∈ out ↔ ∃ r ∈ ringlets, r.readNode = n ∧
      g.node? e.target = some r.writeNode ∧ e.cost = r.cost
  continuation : ∀ i p, g.node? i = some p → p.kind = .write → ∃ out, g.successors? i = some out ∧
    out.Nodup ∧ ∀ e, e ∈ out ↔ ∃ q, g.node? e.target = some q ∧ q.kind = .read ∧
      Continues p q ∧ e.cost = .zero
  known : ∀ s ∈ initial, ∃ i, g.node? i = some ⟨s, .read⟩
  start : ∀ i, i ∈ g.initial ↔ ∃ s ∈ initial, g.node? i = some ⟨s, .read⟩

/-- No ringlet continues this one. -/
def IsDeadEnd (ringlets : List Ringlet) (r : Ringlet) : Prop :=
  ∀ q ∈ ringlets, ¬ Continues r.writeNode q.readNode

/-- No ringlet starts from the snapshot. -/
def IsUnknown (ringlets : List Ringlet) (s : Snapshot) : Prop := ∀ r ∈ ringlets, r.pre ≠ s

/-! ### The passes -/

section

variable {ringlets : List Ringlet} {initial : List Snapshot} {d : Draft} {b b' : Builder}

theorem exists_node?_of_mem {n : Node} (h : n ∈ b.nodes.toList) : ∃ i, b.node? i = some n := by
  obtain ⟨k, hk⟩ := List.mem_iff_getElem?.mp h
  exact ⟨⟨k⟩, (b.node?_eq ⟨k⟩).trans hk⟩

theorem stuck_iff (hd : d.Records ringlets) {p : Node} :
    Stuck d.builder.node? d.reads.toList p ↔ ∀ q ∈ ringlets, ¬ Continues p q.readNode := by
  constructor
  · intro h q hq hc
    obtain ⟨i, hi⟩ := exists_node?_of_mem (hd.mem_nodes hq).1
    have hmem : i ∈ d.reads.toList := Array.mem_def.mp ((hd.reads i).mpr ⟨q, hq, hi⟩)
    rw [← continues_iff, h i hmem _ hi] at hc
    cases hc
  · intro h i hi n hn
    obtain ⟨q, hq, hq'⟩ := (hd.reads i).mp (Array.mem_def.mpr hi)
    cases hn.symm.trans hq'
    exact Bool.eq_false_iff.mpr fun hc => h q hq (continues_iff.mp hc)

/-- The builder has the nodes and edges that the ringlets describe. -/
structure Complete (ringlets : List Ringlet) (b : Builder) : Prop where
  nodes : b.nodes.toList = (ringlets.flatMap fun r => [r.readNode, r.writeNode]).eraseDups
  step : ∀ i n, b.node? i = some n → n.kind = .read → ∀ e, e ∈ b.out i ↔ ∃ r ∈ ringlets,
    r.readNode = n ∧ b.node? e.target = some r.writeNode ∧ e.cost = r.cost
  continuation : ∀ i p, b.node? i = some p → p.kind = .write → ∀ e, e ∈ b.out i ↔ ∃ q,
    b.node? e.target = some q ∧ q.kind = .read ∧ Continues p q ∧ e.cost = .zero

theorem Complete.congr (hc : Complete ringlets b) (hn : b'.nodes = b.nodes)
    (he : b'.edges = b.edges) : Complete ringlets b' := by
  have hnode : b'.node? = b.node? := funext fun i => by rw [Builder.node?, hn, Builder.node?]
  have hout : b'.out = b.out := funext fun i => by
    rw [Builder.out, Builder.successors?, he, Builder.out, Builder.successors?]
  exact ⟨hn ▸ hc.nodes, by rw [hnode, hout]; exact hc.step,
    by rw [hnode, hout]; exact hc.continuation⟩

/-- Every node comes from a ringlet. -/
theorem mem_nodes_iff (h : b.nodes.toList =
    (ringlets.flatMap fun r => [r.readNode, r.writeNode]).eraseDups) {n : Node} :
    n ∈ b.nodes.toList ↔ ∃ r ∈ ringlets, n = r.readNode ∨ n = r.writeNode := by
  rw [h, List.mem_eraseDups, List.mem_flatMap]
  simp

/-- The second pass completes the first one. A snapshot before a step has no continuations and a
snapshot after a step starts no step, so each node has the edges of one pass only. -/
theorem complete_of_grows (hd : d.Records ringlets) (hg : d.builder.Grows b fun i e =>
    i ∈ d.writes.toList ∧ GoesOn d.builder.node? d.reads.toList i e) : Complete ringlets b := by
  have hnode : b.node? = d.builder.node? := funext hg.node?
  refine ⟨by rw [hg.nodes, hd.nodes], fun i n hn hk e => ?_, fun i p hp hk e => ?_⟩
  · rw [hnode] at hn ⊢
    rw [hg.out, hd.out]
    constructor
    · rintro (⟨r, hr, hi, ht, hc⟩ | ⟨hw, -⟩)
      · exact ⟨r, hr, Option.some.inj (hi.symm.trans hn), ht, hc⟩
      · obtain ⟨r, -, hi⟩ := (hd.writes i).mp (Array.mem_def.mpr hw)
        cases hn.symm.trans hi
        cases hk
    · rintro ⟨r, hr, rfl, ht, hc⟩
      exact .inl ⟨r, hr, hn, ht, hc⟩
  · rw [hnode] at hp ⊢
    rw [hg.out, hd.out]
    constructor
    · rintro (⟨r, -, hi, -⟩ | ⟨-, hc, hr, p', q, hp', hq, hcont⟩)
      · cases hp.symm.trans hi
        cases hk
      · cases hp.symm.trans hp'
        obtain ⟨r, -, hr'⟩ := (hd.reads _).mp (Array.mem_def.mpr hr)
        cases hq.symm.trans hr'
        exact ⟨_, hq, rfl, continues_iff.mp hcont, hc⟩
    · rintro ⟨q, hq, hkq, hcont, hc⟩
      obtain ⟨r, hr, rfl | rfl⟩ := (mem_nodes_iff hd.nodes).mp
        (List.mem_of_getElem? ((d.builder.node?_eq _).symm.trans hp))
      · cases hk
      · obtain ⟨r', hr', rfl | rfl⟩ := (mem_nodes_iff hd.nodes).mp
          (List.mem_of_getElem? ((d.builder.node?_eq _).symm.trans hq))
        · have hreads := Array.mem_def.mp ((hd.reads _).mpr ⟨r', hr', hq⟩)
          have hwrites := Array.mem_def.mp ((hd.writes _).mpr ⟨r, hr, hp⟩)
          exact .inr ⟨hwrites, hc, hreads, _, _, hp, hq, continues_iff.mpr hcont⟩
        · cases hkq

theorem exists_out {i : NodeId} {n : Node} (h : b.node? i = some n) :
    b.edges[i.index]? = some (b.out i) := by
  have hlt := Builder.index_lt_of_node? h
  rw [Builder.out, Builder.successors?, Array.getElem?_eq_getElem hlt, Option.getD_some]

/-- Without dead ends nothing is wrong with the edges. -/
theorem Complete.rows (hc : Complete ringlets b) (hgo : ∀ r ∈ ringlets, ¬ IsDeadEnd ringlets r) :
    ∀ out ∈ b.edges, out ≠ [] ∧ ∀ e ∈ out, e.target.index < b.nodes.values.size := by
  have hinside : ∀ {i : NodeId} {n : Node}, b.node? i = some n → i.index < b.nodes.values.size :=
    fun h => by
      have := Builder.index_lt_of_node? h
      rwa [b.aligned] at this
  intro out hout
  obtain ⟨k, hk, rfl⟩ := Array.mem_iff_getElem.mp hout
  have hlt : k < b.nodes.toList.length := by
    rwa [Table.toList, Array.length_toList, ← Table.size, ← b.aligned]
  have hnode : b.node? ⟨k⟩ = some b.nodes.toList[k] :=
    (b.node?_eq ⟨k⟩).trans (List.getElem?_eq_getElem hlt)
  have hrow : b.edges[k] = b.out ⟨k⟩ :=
    Option.some.inj ((Array.getElem?_eq_getElem hk).symm.trans (exists_out hnode))
  rw [hrow]
  obtain ⟨r, hr, hn | hn⟩ := (mem_nodes_iff hc.nodes).mp (List.getElem_mem hlt)
  · have hstep := hc.step _ _ hnode (by rw [hn]; rfl)
    obtain ⟨j, hj⟩ := exists_node?_of_mem ((mem_nodes_iff hc.nodes).mpr ⟨r, hr, .inr rfl⟩)
    refine ⟨List.ne_nil_of_mem ((hstep ⟨j, r.cost⟩).mpr ⟨r, hr, hn.symm, hj, rfl⟩), fun e he => ?_⟩
    obtain ⟨r', -, -, ht, -⟩ := (hstep e).mp he
    exact hinside ht
  · have hcont := hc.continuation _ _ hnode (by rw [hn]; rfl)
    rw [hn] at hcont
    have hgoes := hgo r hr
    rw [IsDeadEnd] at hgoes
    push Not at hgoes
    obtain ⟨q, hq, hrq⟩ := hgoes
    obtain ⟨j, hj⟩ := exists_node?_of_mem ((mem_nodes_iff hc.nodes).mpr ⟨q, hq, .inl rfl⟩)
    refine ⟨List.ne_nil_of_mem ((hcont ⟨j, .zero⟩).mpr ⟨_, hj, rfl, hrq, rfl⟩), fun e he => ?_⟩
    obtain ⟨q', ht, -⟩ := (hcont e).mp he
    exact hinside ht

theorem startAt_cases (b : Builder) (initial : List Snapshot) :
    (∃ s ∈ initial, (∀ i, b.node? i ≠ some ⟨s, .read⟩) ∧
      startAt b initial = .error (.unknownInitial ⟨s, .read⟩)) ∨
    ((∀ s ∈ initial, ∃ i, b.node? i = some ⟨s, .read⟩) ∧ ∃ b', startAt b initial = .ok b' ∧
      b'.nodes = b.nodes ∧ b'.edges = b.edges ∧
      ∀ i, i ∈ b'.initial ↔ i ∈ b.initial ∨ ∃ s ∈ initial, b.node? i = some ⟨s, .read⟩) := by
  induction initial generalizing b with
  | nil => exact .inr ⟨by simp, b, rfl, rfl, rfl, by simp⟩
  | cons s initial ih =>
    rw [startAt]
    cases hf : b.find? ⟨s, .read⟩ with
    | none =>
      refine .inl ⟨s, by simp, fun i hi => ?_, rfl⟩
      cases hf.symm.trans (Builder.find?_eq_some_iff.mpr hi)
    | some k =>
      have hk := Builder.find?_eq_some_iff.mp hf
      have hks : ∀ i, b.node? i = some ⟨s, .read⟩ ↔ i = k := fun i =>
        ⟨fun hi => Builder.node?_inj hi hk, fun hi => hi ▸ hk⟩
      rcases ih (b.markInitial k) with ⟨s', hs', hno, herr⟩ | ⟨hall, b', hb', hn, he, hmem⟩
      · exact .inl ⟨s', by simp [hs'], hno, herr⟩
      · refine .inr ⟨fun s' hs' => ?_, b', hb', hn, he, fun i => ?_⟩
        · rcases List.mem_cons.mp hs' with rfl | hs'
          · exact ⟨k, hk⟩
          · exact hall s' hs'
        · have hmark : i ∈ (b.markInitial k).initial ↔ i = k ∨ i ∈ b.initial := SortedSet.mem_insert
          have hnode : (b.markInitial k).node? i = b.node? i := rfl
          simp only [hmem, hmark, hnode, List.mem_cons, exists_eq_or_imp, hks]
          grind

theorem Complete.build_nil (hc : Complete ringlets b)
    (hgo : ∀ r ∈ ringlets, ¬ IsDeadEnd ringlets r) (hnil : b.initial = ∅) :
    b.build = .error .noInitialNodes := by
  refine Kripke.ofParts_of_fault? ?_
  rw [Kripke.fault?_eq_initialFault? b.aligned (hc.rows hgo), hnil]
  rfl

theorem Complete.exists_build (hc : Complete ringlets b)
    (hgo : ∀ r ∈ ringlets, ¬ IsDeadEnd ringlets r)
    (hknown : ∀ s ∈ initial, ∃ i, b.node? i = some ⟨s, .read⟩) (hne : initial ≠ [])
    (hstart : ∀ i, i ∈ b.initial ↔ ∃ s ∈ initial, b.node? i = some ⟨s, .read⟩) :
    ∃ g, b.build = .ok g ∧ Describes ringlets initial g := by
  have hinitial : Kripke.initialFault? b.nodes.values.size b.initial = none := by
    obtain ⟨s, hs⟩ := List.exists_mem_of_ne_nil _ hne
    obtain ⟨i, hi⟩ := hknown s hs
    have hmem : i ∈ b.initial.toList := (hstart i).mpr ⟨s, hs, hi⟩
    rw [Kripke.initialFault?, if_neg (by simpa [SortedSet.isEmpty] using List.ne_nil_of_mem hmem),
      Option.map_eq_none_iff, List.find?_eq_none]
    intro k hk
    obtain ⟨s', -, hk'⟩ := (hstart k).mp hk
    have hlt := Builder.index_lt_of_node? hk'
    rw [b.aligned, Table.size] at hlt
    simpa using hlt
  obtain ⟨g, hg, hnodes, hedges, hinit⟩ := Kripke.exists_ofParts
    ((Kripke.fault?_eq_initialFault? b.aligned (hc.rows hgo)).trans hinitial)
  have hnode : g.node? = b.node? := funext fun i => by
    rw [Kripke.node?, hnodes, b.node?_eq, Table.toList, Array.getElem?_toList]
  have hout : ∀ i n, b.node? i = some n → g.successors? i = some (b.out i) ∧ (b.out i).Nodup :=
    fun i n hn => by
      have ho := exists_out hn
      exact ⟨by rw [Kripke.successors?, hedges, ho], b.simple _ (Array.mem_of_getElem? ho)⟩
  refine ⟨g, hg, ?_, fun i n hn hk => ?_, fun i p hp hk => ?_, ?_, ?_⟩
  · rw [hnodes]
    exact hc.nodes
  · rw [hnode] at hn ⊢
    exact ⟨_, (hout i n hn).1, (hout i n hn).2, hc.step i n hn hk⟩
  · rw [hnode] at hp ⊢
    exact ⟨_, (hout i p hp).1, (hout i p hp).2, hc.continuation i p hp hk⟩
  · rwa [hnode]
  · rwa [hnode, hinit]

end

/-! ### The outcome -/

/-- What comes of ringlets and snapshots to start from. -/
structure Outcome (ringlets : List Ringlet) (initial : List Snapshot)
    (result : Except GraphError Kripke) : Prop where
  graph : ∀ g, result = .ok g → Describes ringlets initial g
  deadEnd : (∃ p, result = .error (.deadEnd p)) ↔ ∃ r ∈ ringlets, IsDeadEnd ringlets r
  unknownInitial : (∃ n, result = .error (.unknownInitial n)) ↔
    (¬ ∃ r ∈ ringlets, IsDeadEnd ringlets r) ∧ ∃ s ∈ initial, IsUnknown ringlets s
  noInitialNodes : result = .error .noInitialNodes ↔
    (¬ ∃ r ∈ ringlets, IsDeadEnd ringlets r) ∧ initial = []
  /-- no other error comes, and the error names the snapshot -/
  error : ∀ e, result = .error e →
    (∃ r ∈ ringlets, IsDeadEnd ringlets r ∧ e = .deadEnd r.writeNode) ∨
    (∃ s ∈ initial, IsUnknown ringlets s ∧ e = .unknownInitial ⟨s, .read⟩) ∨ e = .noInitialNodes

theorem isUnknown_iff {ringlets : List Ringlet} {b : Builder} (hc : Complete ringlets b)
    {s : Snapshot} : IsUnknown ringlets s ↔ ∀ i, b.node? i ≠ some ⟨s, .read⟩ := by
  constructor
  · intro hs i hi
    obtain ⟨r, hr, h | h⟩ := (mem_nodes_iff hc.nodes).mp
      (List.mem_of_getElem? ((b.node?_eq _).symm.trans hi))
    · exact hs r hr (congrArg Node.toSnapshot h).symm
    · cases congrArg Node.kind h
  · rintro h r hr rfl
    obtain ⟨i, hi⟩ := exists_node?_of_mem ((mem_nodes_iff hc.nodes).mpr ⟨r, hr, .inl rfl⟩)
    exact h i hi

theorem outcome_deadEnd {ringlets : List Ringlet} {initial : List Snapshot} {r : Ringlet}
    (hr : r ∈ ringlets) (hdead : IsDeadEnd ringlets r) :
    Outcome ringlets initial (.error (.deadEnd r.writeNode)) := by
  refine ⟨nofun, ⟨fun _ => ⟨r, hr, hdead⟩, fun _ => ⟨_, rfl⟩⟩, ⟨nofun, ?_⟩, ⟨nofun, ?_⟩, ?_⟩
  · exact fun h => absurd ⟨r, hr, hdead⟩ h.1
  · exact fun h => absurd ⟨r, hr, hdead⟩ h.1
  · rintro e ⟨⟩
    exact .inl ⟨r, hr, hdead, rfl⟩

theorem outcome_unknownInitial {ringlets : List Ringlet} {initial : List Snapshot} {s : Snapshot}
    (hgo : ¬ ∃ r ∈ ringlets, IsDeadEnd ringlets r) (hs : s ∈ initial)
    (hno : IsUnknown ringlets s) :
    Outcome ringlets initial (.error (.unknownInitial ⟨s, .read⟩)) := by
  refine ⟨nofun, ⟨nofun, fun h => absurd h hgo⟩, ⟨fun _ => ⟨hgo, s, hs, hno⟩, fun _ => ⟨_, rfl⟩⟩,
    ⟨nofun, ?_⟩, ?_⟩
  · rintro ⟨-, rfl⟩
    cases hs
  · rintro e ⟨⟩
    exact .inr (.inl ⟨s, hs, hno, rfl⟩)

theorem outcome_noInitialNodes {ringlets : List Ringlet}
    (hgo : ¬ ∃ r ∈ ringlets, IsDeadEnd ringlets r) :
    Outcome ringlets [] (.error .noInitialNodes) := by
  refine ⟨nofun, ⟨nofun, fun h => absurd h hgo⟩, ⟨nofun, ?_⟩, ⟨fun _ => ⟨hgo, rfl⟩, fun _ => rfl⟩,
    ?_⟩
  · rintro ⟨-, s, hs, -⟩
    cases hs
  · rintro e ⟨⟩
    exact .inr (.inr rfl)

theorem outcome_ok {ringlets : List Ringlet} {initial : List Snapshot} {g : Kripke}
    (hgo : ¬ ∃ r ∈ ringlets, IsDeadEnd ringlets r) (hne : initial ≠ [])
    (hg : Describes ringlets initial g) (hknown : ∀ s ∈ initial, ¬ IsUnknown ringlets s) :
    Outcome ringlets initial (.ok g) := by
  refine ⟨?_, ⟨nofun, fun h => absurd h hgo⟩, ⟨nofun, ?_⟩, ⟨nofun, fun h => absurd h.2 hne⟩, nofun⟩
  · rintro g' ⟨⟩
    exact hg
  · rintro ⟨-, s, hs, hno⟩
    exact absurd hno (hknown s hs)

theorem exists_outcome (ringlets : List Ringlet) (initial : List Snapshot) :
    ∃ result, make? ringlets initial = some result ∧ Outcome ringlets initial result := by
  obtain ⟨d, hd, hrec⟩ := Draft.exists_ofRinglets? ringlets
  rcases goOnAll?_cases hrec.exists_read hrec.exists_write with
    ⟨i, hi, p, hp, hstuck, hall⟩ | ⟨hgoes, b, hall, hgrow⟩
  · obtain ⟨r, hr, hr'⟩ := (hrec.writes i).mp (Array.mem_def.mpr hi)
    cases hp.symm.trans hr'
    exact ⟨_, make?_eq initial hd hall, outcome_deadEnd hr ((stuck_iff hrec).mp hstuck)⟩
  · have hgo : ¬ ∃ r ∈ ringlets, IsDeadEnd ringlets r := by
      rintro ⟨r, hr, hdead⟩
      obtain ⟨i, hi⟩ := exists_node?_of_mem (hrec.mem_nodes hr).2
      exact hgoes i (Array.mem_def.mp ((hrec.writes i).mpr ⟨r, hr, hi⟩)) _ hi
        ((stuck_iff hrec).mpr hdead)
    have hgo' : ∀ r ∈ ringlets, ¬ IsDeadEnd ringlets r := fun r hr hdead => hgo ⟨r, hr, hdead⟩
    have hc := complete_of_grows hrec hgrow
    have hempty : b.initial = ∅ := hgrow.initial.trans hrec.initial
    refine ⟨(startAt b initial).bind Builder.build, make?_eq initial hd hall, ?_⟩
    rcases startAt_cases b initial with ⟨s, hs, hno, herr⟩ | ⟨hknown, b', hb', hn, he, hmem⟩
    · rw [herr]
      exact outcome_unknownInitial hgo hs ((isUnknown_iff hc).mpr hno)
    · have hc' := hc.congr hn he
      have hnode : b'.node? = b.node? := funext fun i => by rw [Builder.node?, hn, Builder.node?]
      rw [hb', Except.bind]
      by_cases hne : initial = []
      · subst hne
        have hnil : b'.initial = ∅ := SortedSet.ext_mem fun i => by simp [hmem, hempty]
        rw [hc'.build_nil hgo' hnil]
        exact outcome_noInitialNodes hgo
      · rw [← hnode] at hknown hmem
        obtain ⟨g, hg, hdesc⟩ := hc'.exists_build hgo' hknown hne fun i => by simp [hmem, hempty]
        rw [hg]
        refine outcome_ok hgo hne hdesc fun s hs hno => ?_
        obtain ⟨i, hi⟩ := hknown s hs
        exact (isUnknown_iff hc').mp hno i hi

/-- The passes always come to an end with a graph or an error, and the graph is the one that the
ringlets describe. -/
theorem outcome_graph (ringlets : List Ringlet) (initial : List Snapshot) :
    make? ringlets initial = some (graph ringlets initial) ∧
      Outcome ringlets initial (graph ringlets initial) := by
  have hgraph : make? ringlets initial = some (graph ringlets initial) := (Option.some_get _).symm
  obtain ⟨result, hmake, hout⟩ := exists_outcome ringlets initial
  cases hgraph.symm.trans hmake
  exact ⟨hgraph, hout⟩

end Ringlet

end CostCTL
