import Backprop.Graph.View

/-!
# Colours of vertices

Numbers that an isomorphism keeps: a vertex starts with a number for its label,
and every round mixes in the numbers of the vertices at the other ends of its
edges, leaving and entering ones apart. Vertices of different colours cannot
correspond to each other; equal colours say nothing, so that it does not matter
how the numbers are mixed or when the rounds end.
-/

namespace Backprop.View

/-- The edges at each vertex. -/
abbrev Adjacency := Array (List Edge)

def adjacency (v : View) (near : Edge → Nat) : Adjacency :=
  v.edges.foldl (fun table e => table.modify (near e) (e :: ·)) (Array.replicate v.vertices.length [])

/-- The edges that leave each vertex. -/
def outgoing (v : View) : Adjacency := v.adjacency Edge.source

/-- The edges that enter each vertex. -/
def incoming (v : View) : Adjacency := v.adjacency Edge.target

abbrev Colours := Array Nat

/-- Colours are taken modulo a prime. -/
def modulus : Nat := 2147483647

def labelColour (label : String) : Nat := label.toList.foldl (fun acc c => (acc * 257 + c.toNat) % modulus) 7

/-- The colour of a vertex. -/
def colourAt (colours : Colours) (x : Nat) : Nat := (colours[x]?).getD 0

def scatter (colour : Nat) : Nat := (colour * (colour + 5) + 1) % modulus

/-- The sum over the far ends of edges. -/
def gather (colours : Colours) (far : Edge → Nat) (edges : List Edge) : Nat :=
  edges.foldl (fun acc e => acc + scatter (colourAt colours (far e))) 0

/-- The next colour of a vertex. -/
def mix (out into : Adjacency) (colours : Colours) (x : Nat) : Nat :=
  (31 * colourAt colours x + 1009 * gather colours Edge.target ((out[x]?).getD []) +
    65537 * gather colours Edge.source ((into[x]?).getD []) + 17) % modulus

def recolour (out into : Adjacency) : Nat → Colours → Colours
  | 0, colours => colours
  | rounds + 1, colours => recolour out into rounds ((Array.range colours.size).map (mix out into colours))

/-- The number of rounds. -/
def rounds : Nat := 24

def colours (v : View) : Colours :=
  recolour v.outgoing v.incoming rounds (v.vertices.map fun x => labelColour x.label).toArray

end Backprop.View
