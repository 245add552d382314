import Backprop.Build

/-!
# Arguments

What callers hand in: values, and callables that reduce gradients or test
nodes. Where an entry is expected a node stands for its first output, and
whatever can be gone through item by item can stand for a list of entries.
-/

namespace Backprop

namespace Value

/-- The entry a value stands for. -/
def toEntry (h : Heap) : Value → Except Fault Entry
  | entry e => .ok e
  | node n => h.entry n 0
  | v => .error (.graph (.notANode v.kind))

def itemsToEntries (h : Heap) : List Value → Except Fault (List Entry)
  | [] => .ok []
  | v :: rest =>
    match v.toEntry h with
    | .error e => .error e
    | .ok e => (itemsToEntries h rest).map (e :: ·)

/-- The entries of a list, or the one of a single node or entry. -/
def toEntries (h : Heap) (v : Value) : Except Fault (List Entry) :=
  match v with
  | node _ => (v.toEntry h).map fun e => [e]
  | entry e => .ok [e]
  | v =>
    match v.items with
    | .error e => .error e
    | .ok items => itemsToEntries h items

/-- The entry of an output of a node, given as a value. -/
def outputEntry (h : Heap) (v : Value) (index : Int) : Except Fault Entry :=
  match v with
  | node n => h.entry n index
  | v => .error (.graph (.entryOfNonNode v.kind))

end Value

/-- Reduces the partial gradients of one value; it may also come back with nothing. -/
abbrev Aggregator := List Value → Build Value

/-- A test on nodes, whose outcome counts by its truth. -/
structure Selector where
  test : NodeId → Node → Except Fault Datum
  /-- The outcome on whatever is not a node. -/
  stray : Except Fault Datum

namespace Selector

def holds (s : Selector) (n : NodeId) (node : Node) : Except Fault Bool := (s.test n node).map Datum.truth

/-- The outcome on a value. -/
def apply (s : Selector) (h : Heap) : Value → Except Fault Datum
  | .node n => s.test n (h.node n)
  | _ => s.stray

/-- The same outcome whatever is tested. -/
def always (outcome : Except Fault Datum) : Selector := ⟨fun _ _ => outcome, outcome⟩

end Selector

inductive Arg where
  | value (v : Value)
  | aggregator (f : Aggregator)
  | selector (s : Selector)

namespace Arg

def null : Arg := value .null

/-- An argument as a value; a callable is then only known as one. -/
def toValue : Arg → Value
  | value v => v
  | _ => .object { kind := "function", identity := 0 }

def isNull (a : Arg) : Bool := a.toValue.isNull

def truth (a : Arg) : Bool := a.toValue.truth

end Arg

namespace Build

def toEntry (v : Value) : Build Entry := do ofExcept (v.toEntry (← heap))

def toEntries (v : Value) : Build (List Entry) := do ofExcept (v.toEntries (← heap))

/-- Applies the operator of a name to values. -/
def apply (op : Datum) (inputs : List Value) (name : Option String) (deps : List Value)
    (attrs : Ledger String Datum) : Build NodeId := do
  let op ← operator op
  let entries ← ofExcept (Value.itemsToEntries (← heap) inputs)
  applyOp op entries name deps attrs

end Build

end Backprop
