import Backprop.Graph.Colour

/-!
# Isomorphism

Two views are isomorphic if their vertices correspond one to one so that labels
agree and, between any two vertices, there are equally many edges with the same
set of marks. The correspondence is searched vertex by vertex, from the last
number down: outputs come first and every node after its consumers, so that a
node is nearly always pinned by what it feeds. Only vertices of one colour are
tried, and there is no search if the colours do not match.
-/

namespace Backprop.View

/-- The marks of the edges between two vertices. -/
def bundle (out : Adjacency) (source target : Nat) : List (Int × Int) :=
  ((out[source]?).getD []).filterMap fun e => if e.target = target then some (e.index, e.slot) else none

/-- Equally many marks, and the same ones. -/
def agree (xs ys : List (Int × Int)) : Bool :=
  xs.length == ys.length && xs.all (ys.contains ·) && ys.all (xs.contains ·)

/-- One side of a comparison: labels and colours by number, and the edges. -/
structure Side where
  labels : Array String
  colours : Colours
  out : Adjacency

def side (v : View) : Side := ⟨(v.vertices.map Vertex.label).toArray, v.colours, v.outgoing⟩

/-- The colours in order. -/
def Side.palette (s : Side) : List Nat := s.colours.toList.mergeSort Nat.ble

/-- Whether a further pair goes with the pairs chosen so far. -/
def fits (a b : Side) (chosen : List (Nat × Nat)) (x y : Nat) : Bool :=
  colourAt a.colours x == colourAt b.colours y && a.labels[x]? == b.labels[y]? &&
    agree (bundle a.out x x) (bundle b.out y y) && chosen.all fun (p, q) =>
      agree (bundle a.out x p) (bundle b.out y q) && agree (bundle a.out p x) (bundle b.out q y)

/-- Whether the chosen pairs can be completed. -/
def complete (a b : Side) : List Nat → List Nat → List (Nat × Nat) → Bool
  | [], free, _ => free.isEmpty
  | x :: rest, free, chosen =>
    free.any fun y => fits a b chosen x y && complete a b rest (free.erase y) ((x, y) :: chosen)

def isomorphic (v w : View) : Bool :=
  let n := v.vertices.length
  let m := w.vertices.length
  let a := v.side
  let b := w.side
  n == m && v.edges.length == w.edges.length && a.palette == b.palette &&
    complete a b (List.range n).reverse (List.range m).reverse []

end Backprop.View

namespace Backprop.Graph

/-- Equal operator structure and output positions, whatever the nodes and their names. -/
def isIsomorphic (a b : Graph) (h : Heap) : Bool := (a.view h).isomorphic (b.view h)

end Backprop.Graph
