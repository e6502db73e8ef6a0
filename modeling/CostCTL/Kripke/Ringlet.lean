import CostCTL.Kripke.Builder

/-!
# Graphs of recorded steps

A ringlet is one recorded execution step of a machine: a snapshot before, a snapshot after, and
what the step cost. Ringlets describe a graph. Its nodes are the snapshots, each once; a ringlet
leads from its first snapshot to its second; and from the second the machine goes on, at no cost,
with every ringlet whose first snapshot continues it.

The graph is made in three passes: over the ringlets, over the snapshots after a step, and over the
snapshots to start from. A number that leads to no node would end a pass without an answer; none
does (`Ringlet.exists_make?`).
-/

namespace CostCTL

structure Ringlet where
  pre : Snapshot
  post : Snapshot
  cost : Cost
  deriving DecidableEq

namespace Ringlet

def readNode (r : Ringlet) : Node := ⟨r.pre, .read⟩

def writeNode (r : Ringlet) : Node := ⟨r.post, .write⟩

/-- `q` continues `p`: it rests where `p` goes, it has just entered exactly if `p` changes the
control state, and it agrees with `p` on the variables that both record. -/
def continues (p q : Node) : Bool :=
  q.current == p.target && q.entry == (p.target != p.current) &&
    p.vars.entries.all fun (name, value) => (q.var? name).all (· == value)

/-! ### The steps -/

/-- A graph in the making, with the numbers of the snapshots before and after a step. -/
structure Draft where
  builder : Builder
  reads : Array NodeId
  writes : Array NodeId

namespace Draft

def empty : Draft := ⟨.empty, #[], #[]⟩

/-- Write down a number unless it is there. -/
def note (l : Array NodeId) (i : NodeId) : Array NodeId := if i ∈ l then l else l.push i

def record? (d : Draft) (r : Ringlet) : Option Draft :=
  match d with
  | ⟨builder, reads, writes⟩ =>
    let (pre, builder) := builder.addNode r.readNode
    let (post, builder) := builder.addNode r.writeNode
    (builder.addEdge? pre post r.cost).map fun builder =>
      ⟨builder, note reads pre, note writes post⟩

theorem mem_note {l : Array NodeId} {i j : NodeId} : j ∈ note l i ↔ j ∈ l ∨ j = i := by
  rw [note]
  split
  · next hi => exact ⟨.inl, fun hj => hj.elim id (· ▸ hi)⟩
  · exact Array.mem_push

theorem exists_mem_concat {l : List Ringlet} {r : Ringlet} {P : Ringlet → Prop} :
    (∃ x ∈ l ++ [r], P x) ↔ (∃ x ∈ l, P x) ∨ P r := by
  simp [or_and_right, exists_or]

/-- The draft is what the ringlets describe. -/
structure Records (d : Draft) (ringlets : List Ringlet) : Prop where
  nodes : d.builder.nodes.toList = (ringlets.flatMap fun r => [r.readNode, r.writeNode]).eraseDups
  initial : d.builder.initial = ∅
  out : ∀ i e, e ∈ d.builder.out i ↔ ∃ r ∈ ringlets, d.builder.node? i = some r.readNode ∧
    d.builder.node? e.target = some r.writeNode ∧ e.cost = r.cost
  reads : ∀ i, i ∈ d.reads ↔ ∃ r ∈ ringlets, d.builder.node? i = some r.readNode
  writes : ∀ i, i ∈ d.writes ↔ ∃ r ∈ ringlets, d.builder.node? i = some r.writeNode

theorem records_empty : empty.Records [] :=
  ⟨rfl, rfl, by simp [empty, Builder.empty, Builder.out, Builder.successors?], by simp [empty],
    by simp [empty]⟩

variable {d : Draft} {ringlets : List Ringlet}

theorem Records.mem_nodes (hd : d.Records ringlets) {r : Ringlet} (hr : r ∈ ringlets) :
    r.readNode ∈ d.builder.nodes.toList ∧ r.writeNode ∈ d.builder.nodes.toList := by
  rw [hd.nodes, List.mem_eraseDups, List.mem_eraseDups, List.mem_flatMap, List.mem_flatMap]
  exact ⟨⟨r, hr, by simp⟩, ⟨r, hr, by simp⟩⟩

theorem Records.exists_read (hd : d.Records ringlets) :
    ∀ i ∈ d.reads.toList, ∃ q, d.builder.node? i = some q := fun i hi => by
  obtain ⟨r, -, hq⟩ := (hd.reads i).mp (Array.mem_def.mpr hi)
  exact ⟨_, hq⟩

theorem Records.exists_write (hd : d.Records ringlets) :
    ∀ i ∈ d.writes.toList, ∃ p, d.builder.node? i = some p := fun i hi => by
  obtain ⟨r, -, hp⟩ := (hd.writes i).mp (Array.mem_def.mpr hi)
  exact ⟨_, hp⟩

/-- One more ringlet. Nodes that were there keep their numbers, so what is said of the earlier
ringlets stays as it was. -/
theorem Records.exists_record? (hd : d.Records ringlets) (r : Ringlet) :
    ∃ d', d.record? r = some d' ∧ d'.Records (ringlets ++ [r]) := by
  obtain ⟨pre, b₁, h₁⟩ : ∃ i b, d.builder.addNode r.readNode = (i, b) := ⟨_, _, rfl⟩
  obtain ⟨post, b₂, h₂⟩ : ∃ i b, b₁.addNode r.writeNode = (i, b) := ⟨_, _, rfl⟩
  have hadd₁ : d.builder.Adds r.readNode pre b₁ := by
    simpa [h₁] using d.builder.adds_addNode r.readNode
  have hadd₂ : b₁.Adds r.writeNode post b₂ := by simpa [h₂] using b₁.adds_addNode r.writeNode
  have hpre : b₂.node? pre = some r.readNode := hadd₂.node?_of_eq_some _ _ hadd₁.node?_self
  obtain ⟨b, hb, hgrow⟩ := Builder.exists_addEdge? hpre post r.cost
  have hpost := hadd₂.node?_self
  rw [← hgrow.node?] at hpre hpost
  have hkeep : ∀ i m, d.builder.node? i = some m → b.node? i = some m := fun i m hm =>
    (hgrow.node? i).trans (hadd₂.node?_of_eq_some _ _ (hadd₁.node?_of_eq_some _ _ hm))
  have hread : ∀ r' ∈ ringlets, ∀ i, b.node? i = some r'.readNode ↔
      d.builder.node? i = some r'.readNode := fun r' hr' =>
    Builder.node?_iff_of_imp hkeep (hd.mem_nodes hr').1
  have hwrite : ∀ r' ∈ ringlets, ∀ i, b.node? i = some r'.writeNode ↔
      d.builder.node? i = some r'.writeNode := fun r' hr' =>
    Builder.node?_iff_of_imp hkeep (hd.mem_nodes hr').2
  have hpre_iff : ∀ i, b.node? i = some r.readNode ↔ i = pre := fun i =>
    ⟨fun hi => Builder.node?_inj hi hpre, fun hi => hi ▸ hpre⟩
  have hpost_iff : ∀ i, b.node? i = some r.writeNode ↔ i = post := fun i =>
    ⟨fun hi => Builder.node?_inj hi hpost, fun hi => hi ▸ hpost⟩
  refine ⟨⟨b, note d.reads pre, note d.writes post⟩, ?_, ?_, ?_, fun i e => ?_, fun i => ?_,
    fun i => ?_⟩
  · simp only [record?, h₁, h₂, hb, Option.map_some]
  · rw [hgrow.nodes, hadd₂.nodes, hadd₁.nodes, List.flatMap_append,
      Table.toList_put_eq_eraseDups (Table.toList_put_eq_eraseDups hd.nodes r.readNode) r.writeNode,
      List.append_assoc]
    rfl
  · rw [hgrow.initial, hadd₂.initial, hadd₁.initial, hd.initial]
  · rw [hgrow.out, hadd₂.out, hadd₁.out, hd.out, exists_mem_concat]
    refine or_congr (exists_congr fun r' => and_congr_right fun hr' => ?_) ?_
    · rw [hread r' hr', hwrite r' hr']
    · cases e
      simp [hpre_iff, hpost_iff]
  · rw [mem_note, hd.reads, exists_mem_concat]
    refine or_congr (exists_congr fun r' => and_congr_right fun hr' => (hread r' hr' i).symm) ?_
    simp [hpre_iff]
  · rw [mem_note, hd.writes, exists_mem_concat]
    refine or_congr (exists_congr fun r' => and_congr_right fun hr' => (hwrite r' hr' i).symm) ?_
    simp [hpost_iff]

theorem Records.exists_foldlM (hd : d.Records ringlets) (more : List Ringlet) :
    ∃ d', more.foldlM record? d = some d' ∧ d'.Records (ringlets ++ more) := by
  induction more generalizing d ringlets with
  | nil => exact ⟨d, rfl, by rwa [List.append_nil]⟩
  | cons r more ih =>
    obtain ⟨d₁, h₁, hd₁⟩ := hd.exists_record? r
    obtain ⟨d₂, h₂, hd₂⟩ := ih hd₁
    refine ⟨d₂, ?_, by rwa [List.append_assoc] at hd₂⟩
    rw [List.foldlM_cons, h₁]
    exact h₂

def ofRinglets? (ringlets : List Ringlet) : Option Draft := ringlets.foldlM record? empty

theorem exists_ofRinglets? (ringlets : List Ringlet) :
    ∃ d, ofRinglets? ringlets = some d ∧ d.Records ringlets :=
  records_empty.exists_foldlM ringlets

def ofRinglets (ringlets : List Ringlet) : Draft :=
  (ofRinglets? ringlets).get (by
    obtain ⟨d, hd, -⟩ := exists_ofRinglets? ringlets
    rw [hd]
    rfl)

end Draft

/-! ### How the machine goes on -/

/-- Which of the snapshots continue `p`. -/
def continuations? (b : Builder) (p : Node) : List NodeId → Option (List NodeId)
  | [] => some []
  | i :: reads => do
    let q ← b.node? i
    let rest ← continuations? b p reads
    return if continues p q then i :: rest else rest

def linkTo? (b : Builder) (source : NodeId) (targets : List NodeId) : Option Builder :=
  targets.foldlM (fun b target => b.addEdge? source target .zero) b

/-- Go on from one snapshot after a step. -/
def goOn? (reads : List NodeId) (b : Builder) (post : NodeId) :
    Option (Except GraphError Builder) := do
  let p ← b.node? post
  match ← continuations? b p reads with
  | [] => return .error (.deadEnd p)
  | targets => return .ok (← linkTo? b post targets)

/-- Go on from each of the snapshots, up to the first that nothing continues. -/
def goOnAll? (reads : List NodeId) : Builder → List NodeId → Option (Except GraphError Builder)
  | b, [] => some (.ok b)
  | b, post :: writes => do
    match ← goOn? reads b post with
    | .error e => return .error e
    | .ok b => goOnAll? reads b writes

section

variable {b : Builder} {reads writes : List NodeId} {p : Node} {post : NodeId}

theorem exists_continuations? (p : Node) (h : ∀ i ∈ reads, ∃ q, b.node? i = some q) :
    ∃ l, continuations? b p reads = some l ∧
      ∀ i, i ∈ l ↔ i ∈ reads ∧ ∃ q, b.node? i = some q ∧ continues p q = true := by
  induction reads with
  | nil => exact ⟨[], rfl, by simp⟩
  | cons k reads ih =>
    obtain ⟨q, hq⟩ := h k (by simp)
    obtain ⟨l, hl, hmem⟩ := ih fun i hi => h i (by simp [hi])
    refine ⟨if continues p q then k :: l else l, by rw [continuations?, hq, hl]; rfl, fun i => ?_⟩
    by_cases hik : i = k
    · subst hik
      by_cases hc : continues p q = true <;> simp [hc, hmem, hq]
    · by_cases hc : continues p q = true <;> simp [hc, hmem, hik]

theorem exists_linkTo? (h : b.node? post = some p) (targets : List NodeId) :
    ∃ b', linkTo? b post targets = some b' ∧
      b.Grows b' fun i e => i = post ∧ e.target ∈ targets ∧ e.cost = .zero := by
  induction targets generalizing b with
  | nil => exact ⟨b, rfl, (Builder.Grows.refl b).congr (by simp)⟩
  | cons k targets ih =>
    obtain ⟨b₁, h₁, hg₁⟩ := Builder.exists_addEdge? h k .zero
    obtain ⟨b₂, h₂, hg₂⟩ := ih ((hg₁.node? post).trans h)
    refine ⟨b₂, ?_, (hg₁.trans hg₂).congr fun i e => ?_⟩
    · rw [linkTo?, List.foldlM_cons, h₁]
      exact h₂
    · cases e
      simp only [Edge.mk.injEq, List.mem_cons]
      grind

/-- The edge leads, at no cost, to a snapshot that continues the one it comes from. -/
def GoesOn (node? : NodeId → Option Node) (reads : List NodeId) (i : NodeId) (e : Edge) : Prop :=
  e.cost = .zero ∧ e.target ∈ reads ∧
    ∃ p q, node? i = some p ∧ node? e.target = some q ∧ continues p q = true

/-- Nothing continues `p`. -/
def Stuck (node? : NodeId → Option Node) (reads : List NodeId) (p : Node) : Prop :=
  ∀ i ∈ reads, ∀ q, node? i = some q → continues p q = false

theorem goOn?_cases (hr : ∀ i ∈ reads, ∃ q, b.node? i = some q) (hp : b.node? post = some p) :
    (Stuck b.node? reads p ∧ goOn? reads b post = some (.error (.deadEnd p))) ∨
    (¬ Stuck b.node? reads p ∧ ∃ b', goOn? reads b post = some (.ok b') ∧
      b.Grows b' fun i e => i = post ∧ GoesOn b.node? reads i e) := by
  obtain ⟨l, hl, hmem⟩ := exists_continuations? p hr
  cases l with
  | nil =>
    refine .inl ⟨fun i hi q hq => ?_, by rw [goOn?, hp]; simp [hl]⟩
    refine Bool.eq_false_iff.mpr fun hc => ?_
    exact absurd ((hmem i).mpr ⟨hi, q, hq, hc⟩) List.not_mem_nil
  | cons k l =>
    obtain ⟨hk, q, hq, hc⟩ := (hmem k).mp (by simp)
    obtain ⟨b', hb', hgrow⟩ := exists_linkTo? hp (k :: l)
    refine .inr ⟨fun hstuck => ?_, b', by rw [goOn?, hp]; simp [hl, hb'], hgrow.congr fun i e => ?_⟩
    · rw [hstuck k hk q hq] at hc
      cases hc
    · rw [hmem, GoesOn]
      grind

theorem goOnAll?_cases (hr : ∀ i ∈ reads, ∃ q, b.node? i = some q)
    (hw : ∀ i ∈ writes, ∃ p, b.node? i = some p) :
    (∃ i ∈ writes, ∃ p, b.node? i = some p ∧ Stuck b.node? reads p ∧
      goOnAll? reads b writes = some (.error (.deadEnd p))) ∨
    ((∀ i ∈ writes, ∀ p, b.node? i = some p → ¬ Stuck b.node? reads p) ∧
      ∃ b', goOnAll? reads b writes = some (.ok b') ∧
        b.Grows b' fun i e => i ∈ writes ∧ GoesOn b.node? reads i e) := by
  induction writes generalizing b with
  | nil => exact .inr ⟨by simp, b, rfl, (Builder.Grows.refl b).congr (by simp)⟩
  | cons post writes ih =>
    obtain ⟨p, hp⟩ := hw post (by simp)
    rcases goOn?_cases hr hp with ⟨hstuck, herr⟩ | ⟨hgo, b₁, h₁, hg₁⟩
    · exact .inl ⟨post, by simp, p, hp, hstuck, by rw [goOnAll?, herr]; rfl⟩
    · have hnode : b₁.node? = b.node? := funext hg₁.node?
      have hrest := ih (b := b₁) (by rwa [hnode])
        (by rw [hnode]; exact fun i hi => hw i (by simp [hi]))
      rw [hnode] at hrest
      rcases hrest with ⟨i, hi, p', hp', hs, herr⟩ | ⟨hall, b₂, h₂, hg₂⟩
      · exact .inl ⟨i, by simp [hi], p', hp', hs, by rw [goOnAll?, h₁]; exact herr⟩
      · refine .inr ⟨fun i hi p' hp' => ?_, b₂, by rw [goOnAll?, h₁]; exact h₂,
          (hg₁.trans hg₂).congr fun i e => ?_⟩
        · rcases List.mem_cons.mp hi with rfl | hi
          · cases hp.symm.trans hp'
            exact hgo
          · exact hall i hi p' hp'
        · rw [List.mem_cons, or_and_right]

end

/-! ### The graph -/

/-- Mark the snapshots to start from, up to the first that is not recorded. -/
def startAt : Builder → List Snapshot → Except GraphError Builder
  | b, [] => .ok b
  | b, s :: initial => match b.find? ⟨s, .read⟩ with
    | some i => startAt (b.markInitial i) initial
    | none => .error (.unknownInitial ⟨s, .read⟩)

def make? (ringlets : List Ringlet) (initial : List Snapshot) :
    Option (Except GraphError Kripke) := do
  let d ← Draft.ofRinglets? ringlets
  let linked ← goOnAll? d.reads.toList d.builder d.writes.toList
  return do
    let b ← startAt (← linked) initial
    b.build

theorem make?_eq {ringlets : List Ringlet} {d : Draft} {linked : Except GraphError Builder}
    (initial : List Snapshot) (hd : Draft.ofRinglets? ringlets = some d)
    (h : goOnAll? d.reads.toList d.builder d.writes.toList = some linked) :
    make? ringlets initial = some (do (← startAt (← linked) initial).build) := by
  rw [make?, hd, Option.bind_eq_bind, Option.bind_some, h]
  rfl

/-- There is a graph or an error. -/
theorem exists_make? (ringlets : List Ringlet) (initial : List Snapshot) :
    ∃ result, make? ringlets initial = some result := by
  obtain ⟨d, hd, hrec⟩ := Draft.exists_ofRinglets? ringlets
  rcases goOnAll?_cases hrec.exists_read hrec.exists_write with ⟨-, -, p, -, -, h⟩ | ⟨-, b, h, -⟩
  · exact ⟨_, make?_eq initial hd h⟩
  · exact ⟨_, make?_eq initial hd h⟩

/-- The graph that the ringlets describe, started from the given snapshots. -/
def graph (ringlets : List Ringlet) (initial : List Snapshot) : Except GraphError Kripke :=
  (make? ringlets initial).get (Option.isSome_iff_exists.mpr (exists_make? ringlets initial))

end Ringlet

end CostCTL
