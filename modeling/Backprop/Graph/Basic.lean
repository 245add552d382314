import Backprop.Arg

/-!
# Graphs

A graph is given by its output entries and named attributes; it consists of all
nodes that the outputs depend on. Attributes are how a pass gets its arguments.
-/

namespace Backprop

structure Graph where
  outputs : List Entry := []
  attrs : Ledger String Arg := []

namespace Graph

/-- The graph of given outputs. -/
def ofValue (h : Heap) (outputs : Value) (attrs : Ledger String Arg) : Except Fault Graph :=
  (outputs.toEntries h).map fun outputs => { outputs, attrs }

def hasAttr (g : Graph) (name : String) : Bool := Ledger.has g.attrs name

def attr (g : Graph) (name : String) : Except Fault Arg :=
  match Ledger.get? g.attrs name with
  | some value => .ok value
  | none => .error (.graph (.noAttribute name))

/-- The same outputs with further attributes. -/
def withAttrs (g : Graph) (attrs : Ledger String Arg) : Graph := { g with attrs := Ledger.merge g.attrs attrs }

/-- The nodes of the graph, each after those it depends on. -/
def order (g : Graph) (h : Heap) : List NodeId := h.postorder (g.outputs.map Entry.node)

/-- A graph in which a node has strays cannot be traversed. -/
def check (g : Graph) (h : Heap) : Except Fault Unit := h.checkOrder (g.order h)

def size (g : Graph) (h : Heap) : Nat := (g.order h).length

def sortedNames (names : List String) : List String := names.mergeSort fun a b => !(b < a : Bool)

def describe (g : Graph) (h : Heap) : String :=
  let names := (sortedNames (Ledger.keys g.attrs)).map Text.quote
  "Graph(outputs=" ++ h.describeEntries g.outputs ++ ", attrs=[" ++ ", ".intercalate names ++ "])"

/-- How often each operator occurs, in the order of first occurrence. -/
def opCounts (g : Graph) (h : Heap) : Ledger String Nat :=
  (g.order h).foldl (fun acc n =>
    let op := (h.node n).opName
    Ledger.put acc op ((Ledger.get? acc op).getD 0 + 1)) []

end Graph

end Backprop
