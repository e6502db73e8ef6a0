import CostCTL.Kripke.Basic

/-!
# Paths

A path follows edges for ever, and a walk follows finitely many. The cost at a position of a path
is what the edges before it take together. Every node of a graph is the start of some path, because
every node has a successor.
-/

namespace CostCTL.Kripke

variable {g : Kripke}

/-- The edges that leave a node; none if it is not in the graph. -/
def successors (g : Kripke) (i : NodeId) : List Edge := (g.successors? i).getD []

theorem successors_ne_nil {i : NodeId} (h : i.index < g.size) : g.successors i ≠ [] := by
  have hi : i.index < g.edges.size := by rw [g.size_edges]; exact h
  have he : g.successors i = g.edges[i.index] := by simp [successors, successors?, hi]
  rw [he]
  exact g.total _ (Array.getElem_mem hi)

theorem target_inside {i : NodeId} {e : Edge} (h : e ∈ g.successors i) :
    e.target.index < g.size := by
  unfold successors successors? at h
  cases hout : g.edges[i.index]? with
  | none => simp [hout] at h
  | some out =>
    rw [hout, Option.getD_some] at h
    exact g.inside out (Array.mem_of_getElem? hout) e h

structure Path (g : Kripke) where
  node : Nat → NodeId
  edge : Nat → Edge
  leaves : ∀ k, edge k ∈ g.successors (node k)
  arrives : ∀ k, node (k + 1) = (edge k).target

/-- The edges lead from the first node to the second. -/
inductive Walk (g : Kripke) : NodeId → List Edge → NodeId → Prop where
  | nil (i : NodeId) : Walk g i [] i
  | cons {i j : NodeId} {e : Edge} {l : List Edge} (leaves : e ∈ g.successors i)
      (rest : Walk g e.target l j) : Walk g i (e :: l) j

namespace Path

/-- What it takes to come to a position. -/
def cost (p : g.Path) : Nat → Cost
  | 0 => .zero
  | k + 1 => p.cost k + (p.edge k).cost

/-- Take the same choice at every visit of a node. -/
def follow (choose : NodeId → Edge) (start : NodeId) : Nat → NodeId
  | 0 => start
  | k + 1 => (choose (follow choose start k)).target

/-- Every node is the start of a path. -/
theorem exists_path {i : NodeId} (h : i.index < g.size) : ∃ p : g.Path, p.node 0 = i := by
  let choose (j : NodeId) : Edge := (g.successors j).headD ⟨j, .zero⟩
  have leaves (j : NodeId) (hj : j.index < g.size) : choose j ∈ g.successors j := by
    have hne := successors_ne_nil hj
    simp only [choose]
    cases hs : g.successors j with
    | nil => exact absurd hs hne
    | cons e l => simp
  have inside (k : Nat) : (follow choose i k).index < g.size := by
    induction k with
    | zero => exact h
    | succ k ih => exact target_inside (leaves _ ih)
  exact ⟨⟨follow choose i, fun k => choose (follow choose i k), fun k => leaves _ (inside k),
    fun _ => rfl⟩, rfl⟩

end Path

end CostCTL.Kripke
