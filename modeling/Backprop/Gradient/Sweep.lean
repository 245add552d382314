import Backprop.Gradient.Mirror
import Backprop.Gradient.Request
import Backprop.Gradient.RuleBook

/-!
# The reverse sweep

One construction of gradients. All nodes that the outputs depend on are
visited, and every output of theirs gets a slot that collects the gradients
arriving from its consumers. The seeds are placed, and the nodes are then gone
through backwards: what has arrived for the outputs of an operator node is
aggregated, its rule is applied, and the results are passed on to the slots of
its inputs. In the end the slots of the requested entries are aggregated.

A slot is aggregated once. What arrives afterwards is an error, and so is a
rule that does not return one entry for each input. Whatever has been done when
the sweep fails stays as it is.
-/

namespace Backprop

/-- The gradients that have arrived for one output, and their aggregate once there is one. -/
structure Slot where
  partials : List Value := []
  total : Option Value := none
  deriving Inhabited

namespace Slot

/-- Adds a gradient, unless the slot has been aggregated. -/
def add (s : Slot) (h : Heap) (grad : Value) : Except Fault Slot :=
  match s.total with
  | some _ => .error (.gradient (.lateContribution (h.display grad)))
  | none => .ok { s with partials := s.partials ++ [grad] }

/-- Aggregates a slot, unless that has been done. -/
def aggregate (s : Slot) (f : Aggregator) : Build Value :=
  match s.total with
  | some v => pure v
  | none => f s.partials

end Slot

structure Sweep where
  problem : Problem
  used : Bool := false
  order : List NodeId := []
  slots : Ledger NodeId (List Slot) := []
  mirrors : Option MirrorMap := none

/-- A sweep at work. -/
structure Stage where
  work : Workspace
  sweep : Sweep

abbrev Sweeping := ReaderT Ambient (EStateM Fault Stage)

namespace Sweeping

def ofExcept {α : Type} : Except Fault α → Sweeping α
  | .ok a => pure a
  | .error e => throw e

/-- Building within a sweep. -/
def lift {α : Type} (act : Build α) : Sweeping α := fun ambient s =>
  match act ambient s.work with
  | .ok a work => .ok a { s with work }
  | .error e work => .error e { s with work }

def sweep : Sweeping Sweep := do return (← get).sweep

def heap : Sweeping Heap := do return (← get).work.heap

def modifySweep (f : Sweep → Sweep) : Sweeping Unit := modify fun s => { s with sweep := f s.sweep }

end Sweeping

namespace Sweep

def source : String := "gradpass.autodiff.gradient"

def freshSlots (h : Heap) (n : NodeId) : List Slot := List.replicate (h.outputs n).toNat {}

/-- The slots of a node that has been visited. -/
def slotsOf (s : Sweep) (h : Heap) (n : NodeId) : Except Fault (List Slot) :=
  match Ledger.get? s.slots n with
  | some slots => .ok slots
  | none => .error (.unvisited (h.describe n))

def slotAt (s : Sweep) (h : Heap) (e : Entry) : Except Fault Slot := do
  match (← s.slotsOf h e.node)[e.index]? with
  | some slot => return slot
  | none => throw (.misuse .indexOutOfRange)

/-- Replaces the slot of an entry. -/
def putSlot (s : Sweep) (e : Entry) (slot : Slot) : Sweep :=
  match Ledger.get? s.slots e.node with
  | some slots => { s with slots := Ledger.put s.slots e.node (slots.set e.index slot) }
  | none => s

/-- The nodes that the outputs depend on, with a slot for each of their outputs. -/
def visit : Sweeping Unit := do
  let h ← Sweeping.heap
  let ys := (← Sweeping.sweep).problem.ys
  let order := h.postorder (ys.map Entry.node)
  Sweeping.modifySweep fun s => { s with slots := (h.finished order).map fun n => (n, freshSlots h n) }
  Sweeping.ofExcept (h.checkOrder order)
  Sweeping.modifySweep fun s => { s with order }
  Sweeping.lift (Build.log .debug source s!"Gradient pass visited {order.length} nodes from {ys.length} outputs")

/-- Places one seed; a later seed of an output replaces an earlier one. -/
def seedOne (pair : Entry × Entry) : Sweeping Unit := do
  let s ← Sweeping.sweep
  let slot ← Sweeping.ofExcept (s.slotAt (← Sweeping.heap) pair.1)
  Sweeping.modifySweep fun s => s.putSlot pair.1 { slot with partials := [.entry pair.2] }

def seed : Sweeping Unit := do
  let p := (← Sweeping.sweep).problem
  (p.ys.zip p.seeds).forM seedOne

/-- Aggregates the slot of an entry. -/
def aggregateAt (e : Entry) : Sweeping Value := do
  let s ← Sweeping.sweep
  let slot ← Sweeping.ofExcept (s.slotAt (← Sweeping.heap) e)
  let total ← Sweeping.lift (slot.aggregate s.problem.aggregate)
  Sweeping.modifySweep fun s => s.putSlot e { slot with total := total.some? }
  return total

def aggregateAll : List Entry → Sweeping (List Value)
  | [] => return []
  | e :: rest => do
    let total ← aggregateAt e
    return total :: (← aggregateAll rest)

/-- The node that stands in for a forward node when its rule is applied. -/
def mirrored (s : Sweep) (h : Heap) (n : NodeId) : Except Fault NodeId :=
  match s.mirrors with
  | none => .ok n
  | some m =>
    match Ledger.get? m n with
    | some n => .ok n
    | none => .error (.gradient (.notMirrored (h.describe n)))

/-- What stands in for a value; only nodes can be mirrored. -/
def mirroredValue (s : Sweep) (h : Heap) : Value → Except Fault Value
  | .node n => (s.mirrored h n).map .node
  | v =>
    match s.mirrors with
    | none => .ok v
    | some _ => .error (if v.hashable then .gradient (.notMirrored (h.display v)) else .misuse .notHashable)

/-- Fails with a fault that names a node and its operator, as they are by now. -/
def blame {α : Type} (n : NodeId) (fault : String → String → GradientFault) : Sweeping α := do
  let node := (← Sweeping.heap).node n
  match node.op with
  | none => throw (.misuse .noMethod)
  | some op => throw (.gradient (fault op.name node.name))

/-- Passes one gradient of a node on to the slot of an input. -/
def scatterOne (n : NodeId) (input : Entry) (grad : Value) : Sweeping Unit := do
  match grad with
  | .entry e =>
    let s ← Sweeping.sweep
    let h ← Sweeping.heap
    let slot ← Sweeping.ofExcept (s.slotAt h input)
    let slot ← Sweeping.ofExcept (slot.add h (.entry e))
    Sweeping.modifySweep fun s => s.putSlot input slot
  | grad => blame n fun op name => .gradientKind op name grad.kind

def scatter (n : NodeId) : List (Entry × Value) → Sweeping Unit
  | [] => return ()
  | (input, grad) :: rest => do
    scatterOne n input grad
    scatter n rest

/-- Applies the rule of an operator node. -/
def applyRule (book : RuleBook) (n : NodeId) (grads : List Value) : Sweeping (List Value) := do
  match ← Sweeping.lift (book.find n) with
  | none => blame n .noRule
  | some implementation =>
    let forward ← Sweeping.ofExcept ((← Sweeping.sweep).mirrored (← Sweeping.heap) n)
    match implementation.rule with
    | none => throw (.misuse .notIterable)
    | some rule => Sweeping.lift (rule forward grads)

def entriesOf (values : List Value) : List Entry := values.filterMap Value.entry?

/-- Takes the gradients of one node on to its inputs; variables have none. A rule may do anything to the nodes, so the
inputs are not read before it has returned. -/
def step (book : RuleBook) (level : Level) (n : NodeId) : Sweeping Unit := do
  match ((← Sweeping.heap).node n).op with
  | none => return ()
  | some _ =>
    let slots ← Sweeping.ofExcept ((← Sweeping.sweep).slotsOf (← Sweeping.heap) n)
    let totals ← aggregateAll ((List.range slots.length).map fun i => ⟨n, i⟩)
    let grads ← applyRule book n totals
    let inputs := ((← Sweeping.heap).node n).inputs
    if grads.length = inputs.length then
      scatter n (inputs.zip grads)
      let h ← Sweeping.heap
      Sweeping.lift (Build.log level source
        s!"Propagated gradients through {h.describe n}: {h.describeEntries (entriesOf grads)}")
    else blame n fun op name => .gradientCount op name grads.length inputs.length

def steps (book : RuleBook) (level : Level) : List NodeId → Sweeping Unit
  | [] => return ()
  | n :: rest => do
    step book level n
    steps book level rest

def reverse (book : RuleBook) : Sweeping Unit := do
  let level := if ← Sweeping.lift (Build.flag ["debugprint"]) then Level.info else Level.debug
  steps book level (← Sweeping.sweep).order.reverse

/-- A slot for an entry that was not visited. -/
def ensureSlots (n : NodeId) : Sweeping Unit := do
  let h ← Sweeping.heap
  Sweeping.modifySweep fun s =>
    if Ledger.has s.slots n then s else { s with slots := Ledger.put s.slots n (freshSlots h n) }

def assembleAll : List Entry → Sweeping (List Value)
  | [] => return []
  | x :: rest => do
    ensureSlots x.node
    let total ← aggregateAt x
    return total :: (← assembleAll rest)

/-- Mirrors the visited nodes. -/
def mirror : Sweeping Unit := do
  let s ← Sweeping.sweep
  let mirrors ← Sweeping.lift (Build.mirrorMap s.order s.problem.mirror none)
  Sweeping.modifySweep fun s => { s with mirrors }

/-- The gradients of the requested entries, as a graph without attributes. A sweep is made once. -/
def generate (book : RuleBook) : Sweeping Graph := do
  if (← Sweeping.sweep).used then throw (.gradient .generatedTwice)
  Sweeping.modifySweep fun s => { s with used := true }
  visit
  seed
  mirror
  reverse book
  let totals ← assembleAll (← Sweeping.sweep).problem.xs
  let outputs ← Sweeping.ofExcept (Value.itemsToEntries (← Sweeping.heap) totals)
  return { outputs }

/-- Runs a sweep in a workspace. -/
def run (s : Sweep) (book : RuleBook) (ambient : Ambient) (work : Workspace) :
    EStateM.Result Fault Stage Graph :=
  generate book ambient { work, sweep := s }

end Sweep

end Backprop
