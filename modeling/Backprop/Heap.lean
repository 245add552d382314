import Backprop.Op
import Backprop.Value

/-!
# Nodes and the heap

A node is a variable or applies an operator to entries, that is to outputs of
other nodes, and may wait for further nodes through control dependencies. Nodes
are known by their place in the heap, which only grows: equal nodes at two
places are two nodes.

Whatever is given as inputs and dependencies is kept. If some of it is neither
an entry nor, among the dependencies, a node, the node has strays, and only
what comes before the first of them counts as its inputs and dependencies.

A node that is made without a name gets the name of its operator (`var` for a
variable) and a number that counts the names made from that stem.
-/

namespace Backprop

/-- Inputs and dependencies as they were given. -/
structure Links where
  inputs : List Value
  deps : List Value
  deriving Inhabited

namespace Links

def strayInput? (l : Links) : Option Value := l.inputs.find? fun v => v.entry?.isNone

def strayDep? (l : Links) : Option Value := l.deps.find? fun v => v.node?.isNone

def isProper (l : Links) : Bool := l.strayInput?.isNone && l.strayDep?.isNone

/-- The inputs before the first stray. -/
def entries (l : Links) : List Entry := (l.inputs.takeWhile fun v => v.entry?.isSome).filterMap Value.entry?

/-- The dependencies before the first stray among them and the inputs. -/
def nodes (l : Links) : List NodeId :=
  if l.strayInput?.isNone then (l.deps.takeWhile fun v => v.node?.isSome).filterMap Value.node? else []

/-- Why following the links fails. -/
def flaw? (l : Links) : Option Fault :=
  match l.strayInput?, l.strayDep? with
  | some _, _ => some (.misuse .noMethod)
  | none, some v => some (.misuse (if v.hashable then .noMethod else .notHashable))
  | none, none => none

end Links

structure Node where
  op : Option Op := none
  name : String := ""
  inputs : List Entry := []
  deps : List NodeId := []
  attrs : Ledger String Datum := []
  /-- All inputs and dependencies of a node with strays. -/
  strays : Option Links := none
  deriving Inhabited

namespace Node

def isVariable (node : Node) : Bool := node.op.isNone

def outputs (node : Node) : Int :=
  match node.op with
  | none => 1
  | some op => op.outputs

def opName (node : Node) : String :=
  match node.op with
  | none => "null"
  | some op => op.name

def describe (node : Node) : String := s!"Node({node.name}, op={node.opName})"

/-- The producers of the inputs, then the control dependencies. -/
def predecessors (node : Node) : List NodeId := node.inputs.map Entry.node ++ node.deps

/-- The node with given inputs and dependencies. -/
def withLinks (node : Node) (l : Links) : Node :=
  { node with inputs := l.entries, deps := l.nodes, strays := if l.isProper then none else some l }

/-- The inputs and dependencies as they were given. -/
def links (node : Node) : Links := node.strays.getD ⟨node.inputs.map .entry, node.deps.map .node⟩

def flaw? (node : Node) : Option Fault := node.strays.bind Links.flaw?

/-- The stem of a generated name. -/
def stem (op : Option Op) : String :=
  match op with
  | none => "var"
  | some op => op.name

end Node

structure Heap where
  nodes : Array Node := #[]
  counters : Ledger String Nat := []
  deriving Inhabited

namespace Heap

def size (h : Heap) : Nat := h.nodes.size

def node (h : Heap) (n : NodeId) : Node := (h.nodes[n.index]?).getD default

def predecessors (h : Heap) (n : NodeId) : List NodeId := (h.node n).predecessors

def outputs (h : Heap) (n : NodeId) : Int := (h.node n).outputs

/-- The next name made from a stem. -/
def freshName (h : Heap) (stem : String) : String × Heap :=
  let count := (Ledger.get? h.counters stem).getD 0
  (s!"{stem}_{count}", { h with counters := Ledger.put h.counters stem (count + 1) })

def push (h : Heap) (node : Node) : NodeId × Heap := (⟨h.size⟩, { h with nodes := h.nodes.push node })

/-- Adds a node; without a name it gets a fresh one. -/
def create (h : Heap) (name : Option String) (node : Node) : NodeId × Heap :=
  match name with
  | some name => h.push { node with name }
  | none =>
    let (name, h) := h.freshName (Node.stem node.op)
    h.push { node with name }

def update (h : Heap) (n : NodeId) (f : Node → Node) : Heap := { h with nodes := h.nodes.modify n.index f }

/-- The entry of one output, which has to exist. -/
def entry (h : Heap) (n : NodeId) (index : Int) : Except Fault Entry :=
  let node := h.node n
  if index < 0 ∨ node.outputs ≤ index then .error (.graph (.outputOutOfRange index node.name node.outputs))
  else .ok ⟨n, index.toNat⟩

/-- All outputs of a node in order. -/
def entries (h : Heap) (n : NodeId) : List Entry := (List.range (h.outputs n).toNat).map fun i => ⟨n, i⟩

def describe (h : Heap) (n : NodeId) : String := (h.node n).describe

def describeEntry (h : Heap) (e : Entry) : String := s!"{(h.node e.node).name}:{e.index}"

def describeEntries (h : Heap) (es : List Entry) : String := "[" ++ ", ".intercalate (es.map h.describeEntry) ++ "]"

/-- Why following the links of a node fails. -/
def flaw? (h : Heap) (n : NodeId) : Option Fault := (h.node n).flaw?

mutual

/-- The text of a value as it stands inside a list. -/
def literal (h : Heap) : Value → String
  | .data d => d.literal
  | .node n => h.describe n
  | .entry e => h.describeEntry e
  | .list items => "[" ++ ", ".intercalate (h.literals items) ++ "]"
  | .object o => o.text

def literals (h : Heap) : List Value → List String
  | [] => []
  | v :: rest => h.literal v :: h.literals rest

end

/-- The text of a value; text stands for itself. -/
def display (h : Heap) : Value → String
  | .data d => d.display
  | v => h.literal v

@[simp] theorem size_push (h : Heap) (node : Node) : (h.push node).2.size = h.size + 1 := by simp [push, size]

theorem node_push_of_lt {h : Heap} {node : Node} {n : NodeId} (hn : n.index < h.size) :
    (h.push node).2.node n = h.node n := by
  have hn' : n.index < h.nodes.size := hn
  simp [push, Heap.node, Array.getElem?_push, Nat.ne_of_lt hn']

@[simp] theorem node_push_self (h : Heap) (node : Node) : (h.push node).2.node (h.push node).1 = node := by
  simp [push, Heap.node, size]

end Heap

end Backprop
