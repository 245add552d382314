import Backprop.Gradient.Aggregate
import Backprop.Graph.Basic

/-!
# What to differentiate

A request holds the arguments of a gradient construction as they were given; a
problem is a request that has been checked: its outputs, seeds and inputs are
entries, and there is one seed for each output.
-/

namespace Backprop

structure Request where
  ys : Value
  seeds : Value
  xs : Value
  aggregate : Arg := .null
  mirror : Arg := .null

structure Problem where
  ys : List Entry
  seeds : List Entry
  xs : List Entry
  aggregate : Aggregator
  mirror : Option Selector

namespace Request

def entriesOnly : List Value → Option (List Entry)
  | [] => some []
  | .entry e :: rest => (entriesOnly rest).map (e :: ·)
  | _ :: _ => none

/-- A field that has to be a list of entries. -/
def field (name : String) (v : Value) : Except Fault (List Entry) :=
  match v.items with
  | .error e => .error e
  | .ok items =>
    match entriesOnly items with
    | some entries => .ok entries
    | none => .error (.gradient (.notEntries name))

/-- Calls an argument as an aggregator; a test is then applied to the list. -/
def calledAggregator : Arg → Aggregator
  | .aggregator f => f
  | .selector s => fun _ => do return .data (← Build.ofExcept s.stray)
  | .value _ => fun _ => throw (.misuse .notCallable)

/-- The default aggregator stands in for one that is absent. -/
def aggregatorOf (a : Arg) : Aggregator := if a.truth then calledAggregator a else Aggregator.standard

/-- Calls an argument as a test, which an aggregator or a plain value cannot be. -/
def testOf : Arg → Option Selector
  | .selector s => some s
  | a => if a.isNull then none else some (.always (.error (.misuse .notCallable)))

/-- The text of an argument; callables have none of their own. -/
def argument (h : Heap) : Arg → String
  | .value v => h.literal v
  | _ => "<function>"

def describe (r : Request) (h : Heap) : String :=
  s!"GradientConfig(ys={h.literal r.ys}, ys_out_grad={h.literal r.seeds}, xs={h.literal r.xs}, " ++
    s!"aggregate_fun={argument h r.aggregate}, mirror_fun={argument h r.mirror})"

/-- Checks a request. -/
def validate (r : Request) : Except Fault Problem := do
  let ys ← field "ys" r.ys
  let seeds ← field "ys_out_grad" r.seeds
  let xs ← field "xs" r.xs
  if ys.length = seeds.length then
    return { ys, seeds, xs, aggregate := aggregatorOf r.aggregate, mirror := testOf r.mirror }
  else throw (.gradient (.seedCount ys.length seeds.length))

/-- The attributes a graph must have to be differentiated. -/
def requiredAttributes : List String := ["grad_ys", "grad_ys_out_grad", "grad_xs"]

def optional (g : Graph) (name : String) : Arg := (Ledger.get? g.attrs name).getD .null

def listed (g : Graph) (name : String) : Except Fault Value := do return .list (← (← g.attr name).toValue.items)

/-- The request that the attributes of a graph hold. -/
def ofGraph (g : Graph) : Except Fault Request := do
  match requiredAttributes.find? fun name => !g.hasAttr name with
  | some name => throw (.gradient (.missingAttribute name))
  | none =>
    let ys ← listed g "grad_ys"
    let seeds ← listed g "grad_ys_out_grad"
    let xs ← listed g "grad_xs"
    return { ys, seeds, xs, aggregate := optional g "grad_aggregate_fun", mirror := optional g "grad_mirror_fun" }

end Request

end Backprop
