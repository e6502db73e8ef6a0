import CostCTL.Cost
import CostCTL.Id
import CostCTL.Node
import CostCTL.Sorted.Set

/-!
# Kripke structures

Explicit graphs of nodes whose edges carry costs. Every node has a successor, every edge and every
initial node lies inside the graph, and there is an initial node: these are fields of the type,
and `Kripke.ofParts` reports the first of them that given parts fail.
-/

namespace CostCTL

structure Edge where
  target : NodeId
  cost : Cost
  deriving DecidableEq, Repr

inductive GraphError where
  | adjacencyMismatch (nodes adjacency : Nat)
  | danglingEdge (source target : NodeId)
  | unknownNode (node : NodeId)
  | noSuccessor (node : NodeId)
  | noInitialNodes
  /-- an initial snapshot that no recorded step starts from -/
  | unknownInitial (node : Node)
  /-- a snapshot after a step from which no recorded step continues -/
  | deadEnd (node : Node)
  deriving DecidableEq

def GraphError.message : GraphError → String
  | adjacencyMismatch nodes adjacency =>
    "adjacency has " ++ toString adjacency ++ " entries for " ++ toString nodes ++ " nodes"
  | danglingEdge source target =>
    "edge " ++ source.text ++ " -> " ++ target.text ++ " points outside the graph"
  | unknownNode node => "node " ++ node.text ++ " does not exist"
  | noSuccessor node => "node " ++ node.text ++ " has no outgoing edge"
  | noInitialNodes => "graph has no initial node"
  | unknownInitial node =>
    "initial snapshot " ++ node.text ++ " is not the pre-state of any ringlet"
  | deadEnd node =>
    "post-state " ++ node.text ++ " has no compatible continuation in control state '"
      ++ node.target ++ "'"

structure Kripke where
  nodes : Array Node
  /-- the edges that leave each node, in the order they were added -/
  edges : Array (List Edge)
  initial : SortedSet NodeId
  size_edges : edges.size = nodes.size
  total : ∀ out ∈ edges, out ≠ []
  inside : ∀ out ∈ edges, ∀ e ∈ out, e.target.index < nodes.size
  initial_nonempty : initial.toList ≠ []
  initial_inside : ∀ i ∈ initial, i.index < nodes.size

namespace Kripke

/-- The fault of the edges that leave one node of a graph with `n` nodes. -/
def edgesFault? (n : Nat) (source : NodeId) (out : List Edge) : Option GraphError :=
  if out.isEmpty then some (.noSuccessor source)
  else (out.find? fun e => n ≤ e.target.index).map fun e => .danglingEdge source e.target

def initialFault? (n : Nat) (initial : SortedSet NodeId) : Option GraphError :=
  if initial.isEmpty then some .noInitialNodes
  else (initial.toList.find? fun i => n ≤ i.index).map .unknownNode

/-- The first fault of the parts of a graph. -/
def fault? (nodes : Array Node) (edges : Array (List Edge)) (initial : SortedSet NodeId) :
    Option GraphError :=
  if edges.size ≠ nodes.size then some (.adjacencyMismatch nodes.size edges.size)
  else
    match edges.toList.zipIdx.findSome? fun (out, i) => edgesFault? nodes.size ⟨i⟩ out with
    | some e => some e
    | none => initialFault? nodes.size initial

section

variable {nodes : Array Node} {edges : Array (List Edge)} {initial : SortedSet NodeId}

theorem edgesFault?_eq_none {n : Nat} {source : NodeId} {out : List Edge}
    (h : edgesFault? n source out = none) : out ≠ [] ∧ ∀ e ∈ out, e.target.index < n := by
  unfold edgesFault? at h
  split at h
  · cases h
  · next hne =>
    simp only [Option.map_eq_none_iff, List.find?_eq_none, decide_eq_true_eq, Nat.not_le] at h
    exact ⟨by simpa using hne, h⟩

theorem initialFault?_eq_none {n : Nat} (h : initialFault? n initial = none) :
    initial.toList ≠ [] ∧ ∀ i ∈ initial, i.index < n := by
  unfold initialFault? at h
  split at h
  · cases h
  · next hne =>
    simp only [Option.map_eq_none_iff, List.find?_eq_none, decide_eq_true_eq, Nat.not_le] at h
    exact ⟨by simpa [SortedSet.isEmpty] using hne, h⟩

theorem fault?_eq_none (h : fault? nodes edges initial = none) :
    edges.size = nodes.size ∧ (∀ out ∈ edges, out ≠ [] ∧ ∀ e ∈ out, e.target.index < nodes.size) ∧
      initialFault? nodes.size initial = none := by
  unfold fault? at h
  split at h
  · cases h
  · next hsize =>
    split at h
    · cases h
    · next hrows =>
      refine ⟨Decidable.not_not.mp hsize, fun out hout => ?_, h⟩
      obtain ⟨i, hi, rfl⟩ := Array.mem_iff_getElem.mp hout
      rw [List.findSome?_eq_none_iff] at hrows
      refine edgesFault?_eq_none (hrows (edges[i], i) ?_)
      simp [List.mk_mem_zipIdx_iff_getElem?, hi]

end

/-- The graph with these parts, or what is wrong with them. -/
def ofParts (nodes : Array Node) (edges : Array (List Edge)) (initial : SortedSet NodeId) :
    Except GraphError Kripke :=
  match h : fault? nodes edges initial with
  | some e => .error e
  | none =>
    have ⟨hsize, hrows, hinit⟩ := fault?_eq_none h
    have ⟨hne, hin⟩ := initialFault?_eq_none hinit
    .ok ⟨nodes, edges, initial, hsize, fun out ho => (hrows out ho).1,
      fun out ho => (hrows out ho).2, hne, hin⟩

def size (g : Kripke) : Nat := g.nodes.size

def edgeCount (g : Kripke) : Nat := g.edges.toList.flatten.length

def node? (g : Kripke) (i : NodeId) : Option Node := g.nodes[i.index]?

def successors? (g : Kripke) (i : NodeId) : Option (List Edge) := g.edges[i.index]?

/-- The first node equal to `n`. -/
def find? (g : Kripke) (n : Node) : Option NodeId := (g.nodes.findIdx? (· == n)).map NodeId.mk

end Kripke

end CostCTL
