import Backprop.Heap

/-!
# Depth-first order

All nodes reachable from the heads, each once and after the nodes it depends
on as far as there are no cycles. Inputs are explored in order, then control
dependencies; a node is marked when it is first met. The walk keeps a stack of
nodes with the predecessors still to explore, and hands every node it finishes
to a function that collects them.

A node with strays cannot be finished: the first one that is met stops the
traversal. So does a visitor that fails; it is called on each node as it is
finished.
-/

namespace Backprop.Heap

/-- A node met on the way with the predecessors not explored yet. -/
abbrev Frame := NodeId × List NodeId

def pending : List Frame → Nat
  | [] => 0
  | (_, cs) :: rest => cs.length + 1 + pending rest

theorem count_mark {seen : Array Bool} {i : Nat} (h : seen[i]? = some false) :
    (seen.setIfInBounds i true).count false < seen.count false := by
  obtain ⟨hi, hv⟩ := Array.getElem?_eq_some_iff.mp h
  have hpos : 0 < seen.count false := Array.count_pos_iff.mpr (hv ▸ Array.getElem_mem hi)
  have hf : (seen[i] == false) = true := by rw [hv]; rfl
  rw [Array.setIfInBounds_def, dif_pos hi, Array.count_set hi, if_pos hf, if_neg (by decide)]
  omega

/-- Runs the stack down; every node that is finished is added to `done`. -/
def walk {σ : Type} (h : Heap) (finish : NodeId → σ → σ) (stack : List Frame) (seen : Array Bool) (done : σ) :
    Array Bool × σ :=
  match stack with
  | [] => (seen, done)
  | (n, []) :: rest => h.walk finish rest seen (finish n done)
  | (n, c :: cs) :: rest =>
    if seen[c.index]? = some false then
      h.walk finish ((c, h.predecessors c) :: (n, cs) :: rest) (seen.setIfInBounds c.index true) done
    else h.walk finish ((n, cs) :: rest) seen done
termination_by (seen.count false, pending stack)
decreasing_by
  · exact Prod.Lex.right _ (by simp [pending])
  · rename_i hc; exact Prod.Lex.left _ _ (count_mark hc)
  · exact Prod.Lex.right _ (by simp [pending])

/-- Explores one head after what has been explored already. -/
def explore {σ : Type} (h : Heap) (finish : NodeId → σ → σ) (state : Array Bool × σ) (head : NodeId) : Array Bool × σ :=
  match state with
  | (seen, done) =>
    if seen[head.index]? = some false then
      h.walk finish [(head, h.predecessors head)] (seen.setIfInBounds head.index true) done
    else (seen, done)

/-- The reachable nodes in the order in which they are finished. -/
def postorder (h : Heap) (heads : List NodeId) : List NodeId :=
  (heads.foldl (h.explore List.cons) (Array.replicate h.size false, [])).2.reverse

/-- The nodes that are finished before a traversal fails. -/
def finished (h : Heap) (order : List NodeId) : List NodeId := order.takeWhile fun n => (h.flaw? n).isNone

def checkOrder (h : Heap) (order : List NodeId) : Except Fault Unit :=
  match order.findSome? h.flaw? with
  | some fault => .error fault
  | none => .ok ()

/-- The finished nodes, the last one first, and the visitor's state, or why the traversal has stopped. -/
abbrev Progress (τ : Type) := EStateM.Result Fault τ (List NodeId)

/-- Finishes a node and calls the visitor on it, unless the traversal has stopped. -/
def present {τ : Type} (h : Heap) (visitor : NodeId → EStateM Fault τ Unit) (n : NodeId) : Progress τ → Progress τ
  | .error fault s => .error fault s
  | .ok done s =>
    match h.flaw? n with
    | some fault => .error fault s
    | none =>
      match visitor n s with
      | .ok _ s => .ok (n :: done) s
      | .error fault s => .error fault s

/-- Traverses from values, of which the first that is no node or entry stops the traversal. -/
def visit {τ : Type} (h : Heap) (visitor : NodeId → EStateM Fault τ Unit) (values : List Value) :
    EStateM Fault τ (List NodeId) := fun s =>
  match (Value.heads values).1.foldl (h.explore (h.present visitor)) (Array.replicate h.size false, .ok [] s) with
  | (_, .error fault s) => .error fault s
  | (_, .ok done s) =>
    match (Value.heads values).2 with
    | .error fault => .error fault s
    | .ok _ => .ok done.reverse s

end Backprop.Heap
