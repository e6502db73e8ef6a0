import CostCTL.Digest.Basic
import CostCTL.Kripke.Basic
import CostCTL.Table

/-!
# Building graphs node by node

Equal nodes are one node, and an edge is kept once for each target and cost.
-/

namespace CostCTL

structure Builder where
  nodes : Table Node
  edges : Array (List Edge)
  initial : SortedSet NodeId
  aligned : edges.size = nodes.size
  simple : ∀ out ∈ edges, out.Nodup

namespace Builder

def empty : Builder := ⟨.empty, #[], ∅, rfl, nofun⟩

def size (b : Builder) : Nat := b.nodes.size

def addNode (b : Builder) (n : Node) : NodeId × Builder :=
  match b with
  | ⟨nodes, edges, initial, aligned, simple⟩ =>
    match h : nodes.put n with
    | ((number, fresh), nodes') =>
      (⟨number - 1⟩, ⟨nodes', if fresh then edges.push [] else edges, initial, by
        have hsize := nodes.size_put n
        rw [h] at hsize
        cases fresh <;> simp_all, by
        cases fresh
        · exact simple
        · intro out ho
          rcases Array.mem_push.mp ho with ho | rfl
          · exact simple out ho
          · exact List.nodup_nil⟩)

def find? (b : Builder) (n : Node) : Option NodeId :=
  (b.nodes.find? n).map fun number => ⟨number - 1⟩

def node? (b : Builder) (i : NodeId) : Option Node := b.nodes.get? (i.index + 1)

def successors? (b : Builder) (i : NodeId) : Option (List Edge) := b.edges[i.index]?

/-- Add an edge from a node of the builder. The target is not looked at. -/
def addEdge? (b : Builder) (source target : NodeId) (cost : Cost) : Option Builder :=
  match h : b.successors? source with
  | none => none
  | some out =>
    let e : Edge := ⟨target, cost⟩
    if he : e ∈ out then some b
    else some { b with
      edges := b.edges.setIfInBounds source.index (out ++ [e])
      aligned := Array.size_setIfInBounds.trans b.aligned
      simple := fun out' ho => by
        rcases Array.mem_or_eq_of_mem_setIfInBounds ho with ho | rfl
        · exact b.simple out' ho
        · have hout := b.simple out (Array.mem_of_getElem? h)
          exact List.nodup_append.mpr ⟨hout, by simp, by
            rintro a ha _ hb rfl
            exact he (List.mem_singleton.mp hb ▸ ha)⟩ }

def markInitial (b : Builder) (i : NodeId) : Builder := { b with initial := b.initial.insert i }

def build (b : Builder) : Except GraphError Kripke :=
  Kripke.ofParts b.nodes.values b.edges b.initial

/-! ### What the operations add -/

variable {b b' b'' : Builder} {i s : NodeId} {m n : Node}

theorem node?_eq (b : Builder) (i : NodeId) : b.node? i = b.nodes.toList[i.index]? :=
  b.nodes.get?_succ i.index

theorem node?_inj (h : b.node? i = some n) (h' : b.node? s = some n) : i = s := by
  have := Table.get?_inj h h'
  cases i
  cases s
  simp_all

/-- Where nodes keep their numbers, a node that was there is found where it was. -/
theorem node?_iff_of_imp (h : ∀ i m, b.node? i = some m → b'.node? i = some m)
    (hn : n ∈ b.nodes.toList) (i : NodeId) : b'.node? i = some n ↔ b.node? i = some n := by
  obtain ⟨k, hk⟩ := List.mem_iff_getElem?.mp hn
  have hk' : b.node? ⟨k⟩ = some n := (b.node?_eq ⟨k⟩).trans hk
  exact ⟨fun hi => node?_inj hi (h _ _ hk') ▸ hk', h i n⟩

theorem find?_eq_some_iff : b.find? n = some i ↔ b.node? i = some n := by
  rw [find?, node?, Option.map_eq_some_iff]
  constructor
  · rintro ⟨number, hn, rfl⟩
    rw [Table.find?_eq_some_iff] at hn
    cases number with
    | zero => cases hn
    | succ k => exact hn
  · exact fun hn => ⟨i.index + 1, Table.find?_eq_some_iff.mpr hn, rfl⟩

/-- The edges that leave a node, none if there is no such node. -/
def out (b : Builder) (i : NodeId) : List Edge := (b.successors? i).getD []

/-- What `b'` has of `b` once the node is added as number `i`. -/
structure Adds (b : Builder) (n : Node) (i : NodeId) (b' : Builder) : Prop where
  nodes : b'.nodes = (b.nodes.put n).2
  initial : b'.initial = b.initial
  out : ∀ k, b'.out k = b.out k
  node?_self : b'.node? i = some n
  node?_of_eq_some : ∀ k m, b.node? k = some m → b'.node? k = some m

theorem adds_addNode (b : Builder) (n : Node) : b.Adds n (b.addNode n).1 (b.addNode n).2 where
  nodes := rfl
  initial := rfl
  out := fun k => by
    have hedges : (b.addNode n).2.edges =
      if (b.nodes.put n).1.2 then b.edges.push [] else b.edges := rfl
    rw [out, successors?, hedges, out, successors?]
    split
    · rw [Array.getElem?_push]
      split
      · next hk => simp [hk]
      · rfl
    · rfl
  node?_self := by
    have hput := b.nodes.get?_put_self n
    have hi : (b.addNode n).1 = ⟨(b.nodes.put n).1.1 - 1⟩ := rfl
    have hnodes : (b.addNode n).2.nodes = (b.nodes.put n).2 := rfl
    rw [node?, hi, hnodes]
    cases hn : (b.nodes.put n).1.1 with
    | zero => rw [hn] at hput; cases hput
    | succ k => rwa [hn] at hput
  node?_of_eq_some := fun _ _ h => Table.get?_put_of_eq_some h

/-- One builder is another with more edges. -/
structure Grows (b b' : Builder) (added : NodeId → Edge → Prop) : Prop where
  nodes : b'.nodes = b.nodes
  initial : b'.initial = b.initial
  out : ∀ i e, e ∈ b'.out i ↔ e ∈ b.out i ∨ added i e

theorem Grows.node? {added : NodeId → Edge → Prop} (h : b.Grows b' added) (i : NodeId) :
    b'.node? i = b.node? i := by
  rw [Builder.node?, h.nodes, Builder.node?]

theorem Grows.refl (b : Builder) : b.Grows b fun _ _ => False := ⟨rfl, rfl, by simp⟩

theorem Grows.trans {p q : NodeId → Edge → Prop} (h : b.Grows b' p) (h' : b'.Grows b'' q) :
    b.Grows b'' fun i e => p i e ∨ q i e :=
  ⟨h'.nodes.trans h.nodes, h'.initial.trans h.initial, fun i e => by
    rw [h'.out, h.out, or_assoc]⟩

theorem Grows.congr {p q : NodeId → Edge → Prop} (h : b.Grows b' p) (hpq : ∀ i e, p i e ↔ q i e) :
    b.Grows b' q :=
  ⟨h.nodes, h.initial, fun i e => (h.out i e).trans (or_congr_right (hpq i e))⟩

theorem index_lt_of_node? (h : b.node? i = some n) : i.index < b.edges.size := by
  rw [node?_eq] at h
  have hlt := (List.getElem?_eq_some_iff.mp h).1
  rwa [Table.toList, Array.length_toList, ← Table.size, ← b.aligned] at hlt

/-- An edge can be added at every node of the builder. -/
theorem exists_addEdge? (h : b.node? s = some n) (target : NodeId) (cost : Cost) :
    ∃ b', b.addEdge? s target cost = some b' ∧
      b.Grows b' fun i e => i = s ∧ e = ⟨target, cost⟩ := by
  have hlt := index_lt_of_node? h
  have hs : b.successors? s = some b.edges[s.index] := Array.getElem?_eq_getElem hlt
  rw [addEdge?]
  split
  · next hn => cases hn.symm.trans hs
  · next out ho =>
    have hout : b.out s = out := by rw [Builder.out, ho, Option.getD_some]
    by_cases he : (⟨target, cost⟩ : Edge) ∈ out
    · refine ⟨b, dif_pos he, rfl, rfl, fun i e => (or_iff_left_of_imp ?_).symm⟩
      rintro ⟨rfl, rfl⟩
      rwa [hout]
    · refine ⟨_, dif_neg he, rfl, rfl, fun i e => ?_⟩
      have hi : s.index = i.index ↔ i = s := by cases i; cases s; simp [eq_comm]
      simp only [Builder.out, successors?, Array.getElem?_setIfInBounds, hi]
      by_cases his : i = s
      · have hs' : b.edges[s.index] = out := Option.some.inj (hs.symm.trans ho)
        simp [his, hlt, hs']
      · simp [his]

end Builder

end CostCTL
