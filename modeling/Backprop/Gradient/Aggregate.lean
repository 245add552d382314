import Backprop.Arg

/-!
# Aggregation

The partial gradients of one value are reduced to a single entry. By default a
single one is taken as it is, none become a new zero node and several a new sum
node; the operators for zero and sum are settings, and the number of inputs
they take is not checked.
-/

namespace Backprop

namespace Build

/-- The first output of a new node with a generated name. -/
def unnamed (op : Op) (inputs : List Value) : Build Entry := do entry (← createOn op none inputs) 0

def zero : Build Entry := do unnamed (← operator (← setting ["autodiff", "zero_op"])) []

def sum (grads : List Value) : Build Entry := do unnamed (← operator (← setting ["autodiff", "sum_op"])) grads

def aggregate : List Value → Build Value
  | [] => do return .entry (← zero)
  | [grad] => pure grad
  | grads => do return .entry (← sum grads)

end Build

def Aggregator.standard : Aggregator := Build.aggregate

/-- Ready-made aggregators. -/
inductive Reduction where
  | standard
  | alwaysSum
  | reverseSum
  | first
  | last
  | fold
  | nothing
  deriving DecidableEq, Repr

namespace Reduction

def named : List (String × Reduction) :=
  [("default", standard), ("always_sum", alwaysSum), ("reverse_sum", reverseSum), ("first", first), ("last", last),
   ("fold", fold), ("none", nothing)]

def addUp (acc : Value) : List Value → Build Value
  | [] => pure acc
  | grad :: rest => do
    let n ← Build.apply (.text "elemwise_add") [acc, grad] none [] []
    addUp (.entry (← Build.entry n 0)) rest

/-- A sum node of a fixed name, whatever the number of summands. -/
def sumNode (grads : List Value) : Build Value := do
  let op ← Build.operator (.text "__ewise_sum__")
  return .entry (← Build.entry (← Build.createOn op (some "custom_sum") grads) 0)

def reduce : Reduction → List Value → Build Value
  | standard, grads => Build.aggregate grads
  | alwaysSum, grads => sumNode grads
  | reverseSum, grads => Build.aggregate grads.reverse
  | nothing, _ => pure .null
  | _, [] => Build.aggregate []
  | first, grad :: _ => pure grad
  | last, grad :: rest => pure ((grad :: rest).getLast (by simp))
  | fold, grad :: rest => addUp grad rest

/-- The aggregator, which records how many gradients it is given. -/
def aggregator (r : Reduction) : Aggregator := fun grads => do
  Build.emit (.reduced grads.length)
  r.reduce grads

end Reduction

end Backprop
