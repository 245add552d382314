import Backprop.Arg

/-!
# Gradient rules

A rule gets the node to differentiate (or its mirrored substitute) and what
has been aggregated for each of its outputs, and returns one gradient for each
input. Rules build their gradients by applying operators to the aggregated
gradients and to inputs and outputs of the node.
-/

namespace Backprop

abbrev Rule := NodeId → List Value → Build (List Value)

namespace Rule

/-- An item by position; negative positions count from the end. -/
def pick (items : List Value) (position : Int) : Build Value := do
  return (items[← Build.ofExcept (Datum.place items.length position)]?).getD .null

/-- The inputs of a node as they were given. -/
def inputs (n : NodeId) : Build (List Value) := do return ((← Build.heap).node n).links.inputs

def input (n : NodeId) (position : Int) : Build Value := do pick (← inputs n) position

def output (n : NodeId) (index : Int) : Build Value := do return .entry (← Build.entry n index)

/-- Both inputs of a node that has exactly two. -/
def twoInputs (n : NodeId) : Build (Value × Value) := do
  match ← inputs n with
  | [a, b] => return (a, b)
  | _ => throw (.misuse .wrongCount)

/-- A new node named after the node that is differentiated. -/
def derive (n : NodeId) (suffix op : String) (args : List Value) : Build NodeId := do
  let name := ((← Build.heap).node n).name ++ "_grad_" ++ suffix
  Build.apply (.text op) args (some name) [] []

def derived (n : NodeId) (suffix op : String) (args : List Value) : Build Value := do
  output (← derive n suffix op args) 0

def zero : Rule := fun _ _ => return []

/-- Every summand gets the gradient of the sum. -/
def sum : Rule := fun n grads => do
  let g ← pick grads 0
  return List.replicate (← inputs n).length g

def constant : Rule := fun n _ => do
  return [← derived n "in" "zeros_like" [← input n 0]]

def copy : Rule := fun _ grads => do return [← pick grads 0]

def negative : Rule := fun n grads => do
  return [← derived n "in" "negative" [← pick grads 0]]

/-- The derivative is the node's own output. -/
def exp : Rule := fun n grads => do
  return [← derived n "in" "elemwise_mul" [← pick grads 0, ← output n 0]]

def log : Rule := fun n grads => do
  return [← derived n "in" "elemwise_div" [← pick grads 0, ← input n 0]]

def relu : Rule := fun n grads => do
  return [← derived n "in" "relu_backward" [← pick grads 0, ← input n 0]]

/-- Linear in the first input, and constant in the second wherever it has a derivative. -/
def reluBackward : Rule := fun n grads => do
  let mask ← input n 1
  let first ← derived n "ograd" "relu_backward" [← pick grads 0, mask]
  return [first, ← derived n "mask" "zeros_like" [mask]]

def add : Rule := fun _ grads => do
  let g ← pick grads 0
  return [g, g]

def sub : Rule := fun n grads => do
  let g ← pick grads 0
  return [g, ← derived n "rhs" "negative" [g]]

def mul : Rule := fun n grads => do
  let (lhs, rhs) ← twoInputs n
  let g ← pick grads 0
  let first ← derived n "lhs" "elemwise_mul" [g, rhs]
  return [first, ← derived n "rhs" "elemwise_mul" [g, lhs]]

/-- For `z = a / b` the gradients are `g / b` and `-(g / b) * z`. -/
def div : Rule := fun n grads => do
  let (_, rhs) ← twoInputs n
  let first ← derived n "lhs" "elemwise_div" [← pick grads 0, rhs]
  let scaled ← derived n "rhs_scaled" "elemwise_mul" [first, ← output n 0]
  return [first, ← derived n "rhs" "negative" [scaled]]

def split : Rule := fun n grads => do
  return [← derived n "in" "concatenate" grads]

def concatenate : Rule := fun n grads => do
  let parts ← derive n "in" "split" [← pick grads 0]
  return ((← Build.heap).entries parts).map Value.entry

end Rule

/-- The node that a value is or comes from. -/
def Value.producer? : Value → Option NodeId
  | node n => some n
  | entry e => some e.node
  | _ => none

/-- Expressions of which custom rules are made. -/
inductive RuleExpr where
  | gradient (position : Int)
  | input (position : Int)
  | output (index : Int)
  | made (op : String) (args deps : List RuleExpr) (name : Option String) (index : Int)
  | nodeOf (expr : RuleExpr)
  | value (d : Datum)

namespace RuleExpr

/-- The first output of a new node without dependencies. -/
abbrev apply (op : String) (args : List RuleExpr) (name : Option String) : RuleExpr := made op args [] name 0

/-- A name in which every `@` stands for the name of the node. -/
def fillName (template name : String) : String := name.intercalate (template.splitOn "@")

def producer : Value → Build Value
  | .entry e => return .node e.node
  | _ => throw (.misuse .noMethod)

mutual

def eval (n : NodeId) (grads : List Value) : RuleExpr → Build Value
  | gradient position => Rule.pick grads position
  | input position => Rule.input n position
  | output index => Rule.output n index
  | made op args deps name index => do
    let args ← evalAll n grads args
    let deps ← evalAll n grads deps
    let own := ((← Build.heap).node n).name
    let links := (deps.filterMap Value.producer?).map Value.node
    let made ← Build.apply (.text op) args (name.map fun t => fillName t own) links []
    Rule.output made index
  | nodeOf expr => do producer (← eval n grads expr)
  | value d => return .data d
termination_by structural expr => expr

def evalAll (n : NodeId) (grads : List Value) : List RuleExpr → Build (List Value)
  | [] => return []
  | expr :: rest => do
    let first ← eval n grads expr
    return first :: (← evalAll n grads rest)
termination_by structural exprs => exprs

end

/-- The rule that returns the values of the expressions. -/
def rule (exprs : List RuleExpr) : Rule := fun n grads => evalAll n grads exprs

end RuleExpr

end Backprop
