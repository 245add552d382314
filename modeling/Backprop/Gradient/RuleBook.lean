import Backprop.Gradient.Rule

/-!
# The rule book

Implementations of gradient rules in the order of their registration, with the
arguments they are registered under: `op` says which operator an implementation
differentiates and `name` what it is called. A node may ask for an
implementation by name; otherwise the first that applies is taken.
-/

namespace Backprop

structure Implementation where
  name : String
  /-- The name with where it is defined, which identifies the implementation. -/
  path : String
  /-- An implementation without a rule cannot be used, but can be registered. -/
  rule : Option Rule
  applies : Selector := .always (.ok (.bool true))

structure Registration where
  implementation : Implementation
  args : Ledger String Datum

abbrev RuleBook := Ledger String Registration

namespace RuleBook

/-- Registering again replaces the arguments and keeps the place. -/
def register (book : RuleBook) (implementation : Implementation) (args : Ledger String Datum) : RuleBook :=
  Ledger.put book implementation.path { implementation, args }

def unregister (book : RuleBook) (path : String) : Except Fault RuleBook :=
  if Ledger.has book path then .ok (Ledger.erase book path) else .error (.registry (.notRegistered path))

/-- Whether a registration is for an operator. -/
def isFor (r : Registration) (op : String) : Bool :=
  match Ledger.get? r.args "op" with
  | some d => d.same (.text op)
  | none => false

/-- The implementations that apply to a node, with their names; all registrations need a name. -/
def candidates (op : String) (n : NodeId) (node : Node) : RuleBook → Except Fault (List (Datum × Implementation))
  | [] => .ok []
  | (path, r) :: rest =>
    match Ledger.get? r.args "name" with
    | none => .error (.registry (.unnamedRule path))
    | some name =>
      if isFor r op then
        match r.implementation.applies.holds n node with
        | .error e => .error e
        | .ok true => (candidates op n node rest).map ((name, r.implementation) :: ·)
        | .ok false => candidates op n node rest
      else candidates op n node rest

/-- The implementation a node asks for. -/
def wanted (node : Node) : Datum := (Ledger.get? node.attrs "gradient_implementation").getD .null

/-- The first candidate of the wanted name, if one is wanted. -/
def preferred (wanted : Datum) (found : List (Datum × Implementation)) : Option Implementation :=
  if wanted.truth then (found.find? fun c => c.1.same wanted).map Prod.snd else none

def source : String := "gradpass.autodiff.base_abc"

def fallback (wanted : Datum) (node : Node) : String :=
  s!"Set gradient_implementation {wanted.display} on {node.describe}, but it could not be applied. " ++
    "Falling back to default selection."

/-- The implementation for a node; variables have none. -/
def find (book : RuleBook) (n : NodeId) : Build (Option Implementation) := do
  let node := (← Build.heap).node n
  match node.op with
  | none => return none
  | some op =>
    let found ← Build.ofExcept (candidates op.name n node book)
    match preferred (wanted node) found with
    | some implementation => return some implementation
    | none =>
      if (wanted node).truth then Build.log .warning source (fallback (wanted node) node)
      return found.head?.map Prod.snd

/-- An implementation that every session starts with, by where it is defined. -/
def builtin (family op name : String) (rule : Rule) : String × Registration :=
  let path := s!"gradpass.autodiff.implementations.{family}.{name}"
  (path, { implementation := { name, path, rule := some rule }
           args := [("op", .text op), ("name", .text "default")] })

def aggregation : RuleBook :=
  [builtin "aggregation_ops" "__zero__" "ZeroGradient" Rule.zero,
   builtin "aggregation_ops" "__ewise_sum__" "ElementwiseSumGradient" Rule.sum]

def elementwise : RuleBook :=
  [builtin "elemwise_ops" "ones_like" "OnesLikeGradient" Rule.constant,
   builtin "elemwise_ops" "zeros_like" "ZerosLikeGradient" Rule.constant,
   builtin "elemwise_ops" "copy" "CopyGradient" Rule.copy,
   builtin "elemwise_ops" "negative" "NegativeGradient" Rule.negative,
   builtin "elemwise_ops" "exp" "ExpGradient" Rule.exp,
   builtin "elemwise_ops" "log" "LogGradient" Rule.log,
   builtin "elemwise_ops" "relu" "ReluGradient" Rule.relu,
   builtin "elemwise_ops" "relu_backward" "ReluBackwardGradient" Rule.reluBackward,
   builtin "elemwise_ops" "elemwise_add" "AddGradient" Rule.add,
   builtin "elemwise_ops" "elemwise_sub" "SubGradient" Rule.sub,
   builtin "elemwise_ops" "elemwise_mul" "MulGradient" Rule.mul,
   builtin "elemwise_ops" "elemwise_div" "DivGradient" Rule.div,
   builtin "elemwise_ops" "split" "SplitGradient" Rule.split,
   builtin "elemwise_ops" "concatenate" "ConcatenateGradient" Rule.concatenate]

def builtins : RuleBook := aggregation ++ elementwise

end RuleBook

end Backprop
