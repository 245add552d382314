import Backprop.Gradient.Strategy
import Backprop.Gradient.Sweep

/-!
# Gradients of outputs with respect to inputs

The entry point: nodes or entries to differentiate and to differentiate by, and
options. Without seeds every output is seeded with a node of the configured
seed operator, and without a test for mirroring the configured strategy decides
what is recomputed.
-/

namespace Backprop

structure Options where
  seeds : Value := .null
  aggregate : Arg := .null
  mirror : Arg := .null
  strategy : StrategyRef := .value .null
  /-- The names of nodes to recompute. -/
  recompute : Datum := .null

namespace Build

/-- Runs a sweep, of which only the graph is kept. -/
def sweep (s : Sweep) (book : RuleBook) : Build Graph := fun ambient work =>
  match s.run book ambient work with
  | .ok g stage => .ok g stage.work
  | .error e stage => .error e stage.work

def generate (book : RuleBook) (r : Request) : Build Graph := do
  let problem ← ofExcept r.validate
  sweep { problem } book

/-- Differentiates a graph by its attributes. -/
def differentiate (book : RuleBook) (g : Graph) : Build Graph := do
  generate book (← ofExcept (Request.ofGraph g))

/-- Seeds every output with a node of its own. -/
def defaultSeeds (op : Datum) : List Entry → Build (List Entry)
  | [] => return []
  | y :: rest => do
    let name := ((← heap).node y.node).name ++ "_seed"
    let n ← apply op [.entry y] (some name) [] []
    let seed ← entry n 0
    return seed :: (← defaultSeeds op rest)

def seedsFor (ys : List Entry) (seeds : Value) : Build (List Entry) := do
  if seeds.isNull then defaultSeeds (← setting ["autodiff", "seed_op"]) ys else toEntries seeds

/-- The test that selects what to recompute. -/
def mirrorTest (strategies : StrategyTable) (o : Options) : Build Arg := do
  if o.mirror.isNull then
    let strategy ← match o.strategy with
      | .value .null => do pure (StrategyRef.value (← setting ["autodiff", "mirror_strategy"]))
      | strategy => pure strategy
    match ← ofExcept (strategies.selector strategy o.recompute) with
    | some test => return .selector test
    | none => return .null
  else return o.mirror

/-- One gradient entry for each requested input, in order. -/
def gradients (book : RuleBook) (strategies : StrategyTable) (ys xs : Value) (o : Options) : Build (List Entry) := do
  let ys ← toEntries ys
  let xs ← toEntries xs
  let seeds ← seedsFor ys o.seeds
  let mirror ← mirrorTest strategies o
  let g ← generate book
    { ys := .ofEntries ys, seeds := .ofEntries seeds, xs := .ofEntries xs, aggregate := o.aggregate, mirror }
  return g.outputs

end Build

end Backprop
