import Backprop.Traversal
import Backprop.Settings.Profile

/-!
# Building graphs

Actions that add nodes to the heap of a workspace. They read the registered
operators and the settings, which they cannot change, and leave a trace: log
records, the sizes of reductions, and warnings. A failed action keeps the nodes
it has made.
-/

namespace Backprop

inductive Level where
  | debug
  | info
  | warning
  deriving DecidableEq, Repr

def Level.name : Level → String
  | debug => "DEBUG"
  | info => "INFO"
  | warning => "WARNING"

inductive Event where
  | log (level : Level) (source text : String)
  | reduced (count : Nat)
  | warned (text : String)
  deriving DecidableEq, Repr

structure Workspace where
  heap : Heap := {}
  trace : Array Event := #[]
  deriving Inhabited

/-- What building reads. -/
structure Ambient where
  ops : OpTable
  profile : Profile

abbrev Build := ReaderT Ambient (EStateM Fault Workspace)

namespace Build

def ofExcept {α : Type} : Except Fault α → Build α
  | .ok a => pure a
  | .error e => throw e

def heap : Build Heap := do return (← get).heap

def emit (event : Event) : Build Unit := modify fun w => { w with trace := w.trace.push event }

def log (level : Level) (source text : String) : Build Unit := emit (.log level source text)

/-- A setting at a path. -/
def setting (path : List String) : Build Datum := do ofExcept ((← read).profile.get path)

def flag (path : List String) : Build Bool := do ofExcept ((← read).profile.getFlag path)

/-- The operator of a name. A name that is not text may still be looked up, in vain, if it can be a key. -/
def operator (name : Datum) : Build Op := do
  match name with
  | .text s => ofExcept ((← read).ops.find s)
  | d => if d.hashable then throw (.graph (.unknownOp d.display)) else throw (.misuse .notHashable)

/-- Adds a node without checks. -/
def create (name : Option String) (node : Node) : Build NodeId := fun _ w =>
  let (n, heap) := w.heap.create name node
  .ok n { w with heap }

def entry (n : NodeId) (index : Int) : Build Entry := do ofExcept ((← heap).entry n index)

/-- Adds a node that applies an operator to whatever is given. -/
def createOn (op : Op) (name : Option String) (inputs : List Value) : Build NodeId :=
  create name (Node.withLinks { op := some op } ⟨inputs, []⟩)

/-- Applies an operator to entries, whose number it has to accept. -/
def applyOp (op : Op) (inputs : List Entry) (name : Option String) (deps : List Value)
    (attrs : Ledger String Datum) : Build NodeId :=
  if op.accepts inputs.length then
    create name (Node.withLinks { op := some op, attrs } ⟨inputs.map .entry, deps⟩)
  else throw (.graph (.arity op.name op.inputs inputs.length))

end Build

end Backprop
