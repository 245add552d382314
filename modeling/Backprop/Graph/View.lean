import Backprop.Graph.Basic

/-!
# Graphs as labelled multigraphs

The nodes of a graph are numbered in topological order and labelled with their
operator; every output position adds one vertex of its own. An edge runs from a
producer to a consumer and is marked with the output it takes and the input
slot it fills. Control dependencies are marked `-1, -1`.
-/

namespace Backprop

structure Edge where
  source : Nat
  target : Nat
  index : Int
  slot : Int
  deriving DecidableEq, Repr

structure Vertex where
  label : String
  name : Option String
  deriving DecidableEq, Repr

structure View where
  /-- The nodes in topological order. -/
  nodes : List Vertex
  /-- One vertex for every output position; they are numbered after the nodes. -/
  sinks : List Vertex
  edges : List Edge
  deriving DecidableEq, Repr

namespace Edge

/-- By source, then target, then index, then slot. -/
def le (a b : Edge) : Bool :=
  if a.source != b.source then a.source < b.source
  else if a.target != b.target then a.target < b.target
  else if a.index != b.index then a.index < b.index
  else a.slot ≤ b.slot

end Edge

namespace View

def vertices (v : View) : List Vertex := v.nodes ++ v.sinks

def sortedEdges (v : View) : List Edge := v.edges.mergeSort Edge.le

end View

namespace Graph

/-- The edges into one node. -/
def edgesInto (order : List NodeId) (target : Nat) (node : Node) : List Edge :=
  (node.inputs.zipIdx.map fun (e, slot) => ⟨order.idxOf e.node, target, e.index, slot⟩) ++
    node.deps.map fun dep => ⟨order.idxOf dep, target, -1, -1⟩

def sinkEdge (order : List NodeId) (position : Nat) (e : Entry) : Edge :=
  ⟨order.idxOf e.node, order.length + position, e.index, 0⟩

def view (g : Graph) (h : Heap) : View :=
  let order := g.order h
  { nodes := order.map fun n => ⟨(h.node n).opName, some (h.node n).name⟩
    sinks := g.outputs.zipIdx.map fun (_, position) => ⟨s!"__output_{position}__", none⟩
    edges := (order.zipIdx.flatMap fun (n, target) => edgesInto order target (h.node n)) ++
      g.outputs.zipIdx.map fun (e, position) => sinkEdge order position e }

end Graph

end Backprop
