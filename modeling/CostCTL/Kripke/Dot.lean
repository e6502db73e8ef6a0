import CostCTL.Digest.Basic
import CostCTL.Kripke.Basic
import CostCTL.Table

/-!
# Graphs in DOT

A graph as a text of the DOT language: a statement for each node, then one for each edge. Shapes
tell snapshots before a step from snapshots after it, and a branch may be highlighted.
-/

namespace CostCTL

structure DotStyle where
  readShape : String := "ellipse"
  writeShape : String := "box"
  initialStyle : String := "bold"
  highlightColor : String := "red"
  showVars : Bool := true
  showCosts : Bool := true

namespace Dot

/-- Text inside a quoted label: quotes and backslashes are escaped by a backslash. -/
def escape (s : String) : String :=
  String.ofList (s.toList.flatMap fun c => if c = '\\' ∨ c = '"' then ['\\', c] else [c])

def nodeLabel (style : DotStyle) (i : NodeId) (n : Node) : String :=
  i.text ++ ": " ++ n.current ++ " -> " ++ n.target ++ (if n.entry then " (entry)" else "")
    ++ (if style.showVars && !n.vars.isEmpty then "\\n" ++ escape n.varsText else "")

def nodeLine (style : DotStyle) (initial onBranch : Bool) (i : NodeId) (n : Node) : String :=
  let shape := match n.kind with
    | .read => style.readShape
    | .write => style.writeShape
  i.text ++ " [shape=" ++ shape ++ ", label=\"" ++ nodeLabel style i n ++ "\""
    ++ (if initial then ", style=" ++ style.initialStyle else "")
    ++ (if onBranch then ", color=" ++ style.highlightColor else "") ++ "];\n"

def edgeLine (style : DotStyle) (onBranch : Bool) (source : NodeId) (e : Edge) : String :=
  let attributes :=
    (if style.showCosts && !e.cost.isZero then ["label=\"" ++ e.cost.text ++ "\""] else [])
      ++ (if onBranch then ["color=" ++ style.highlightColor, "penwidth=2"] else [])
  source.text ++ " -> " ++ e.target.text
    ++ (if attributes.isEmpty then "" else " [" ++ ", ".intercalate attributes ++ "]") ++ ";\n"

/-- A node and the next one on a branch. -/
structure Step where
  source : NodeId
  target : NodeId
  deriving DecidableEq

instance : Hashable Step := ⟨fun s => Digest.mix (Digest.ofId s.source) (Digest.ofId s.target)⟩

/-- The pairs of neighbours on a branch. -/
def steps (branch : List NodeId) : List Step := branch.zipWith Step.mk branch.tail

end Dot

namespace Kripke

open Dot in
def dotLines (g : Kripke) (branch : List NodeId) (style : DotStyle) : List String :=
  let initial := Table.ofList g.initial.toList
  let nodes := Table.ofList branch
  let steps := Table.ofList (steps branch)
  (g.nodes.toList.zipIdx.map fun (n, i) =>
    nodeLine style (initial.contains ⟨i⟩) (nodes.contains ⟨i⟩) ⟨i⟩ n)
  ++ g.edges.toList.zipIdx.flatMap fun (out, i) => out.map fun e =>
    edgeLine style (steps.contains ⟨⟨i⟩, e.target⟩) ⟨i⟩ e

def dot (g : Kripke) (branch : List NodeId) (style : DotStyle) : String :=
  "digraph \x7b\n" ++ String.join (g.dotLines branch style) ++ "\x7d\n"

end Kripke

end CostCTL
